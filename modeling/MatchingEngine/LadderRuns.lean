import MatchingEngine.BookRuns

/-! # The price-time book as a machine

What each call answers and leaves, on the two queues alone. Over whole runs the order book
gives the same answers, and its containers can be read back from the queues. -/
namespace LadderRuns

open EngineTypes
open Orders
open OrderedMap
open OrderBook
open PriceTimeBook
open BookInvariant
open BookRefinement
open BookRuns

/-! ## Answers -/

/-- What a call returns: the trades of `addOrder`, the flag of `cancelOrder`. -/
inductive Answer where
  | trades (ts : List Trade)
  | cancelled (found : Bool)
  deriving DecidableEq

def ask : Call → BookM Answer
  | .add order => do return .trades (← addOrder (order.map Subtype.val))
  | .cancel id => do return .cancelled (← cancelOrder id)

def answer (b : Book) (c : Call) : Except Failure Answer :=
  match (ask c).run b with
  | .ok a _ => .ok a
  | .error f _ => .error f

/-- The answers to the calls of a run, in order. -/
def answers (b : Book) : List Call → List (Except Failure Answer)
  | [] => []
  | c :: calls => answer b c :: answers (step b c) calls

theorem run_cons (b : Book) (c : Call) (calls : List Call) :
    run b (c :: calls) = run (step b c) calls := rfl

theorem run_append (b : Book) (calls later : List Call) :
    run b (calls ++ later) = run (run b calls) later := List.foldl_append

@[simp] theorem length_answers (b : Book) (calls : List Call) :
    (answers b calls).length = calls.length := by
  induction calls generalizing b with
  | nil => rfl
  | cons c calls ih => rw [answers, List.length_cons, List.length_cons, ih]

theorem answers_append (b : Book) (calls later : List Call) :
    answers b (calls ++ later) = answers b calls ++ answers (run b calls) later := by
  induction calls generalizing b with
  | nil => rfl
  | cons c calls ih => rw [List.cons_append, answers, answers, ih, run_cons, List.cons_append]

/-! ## The machine -/

/-- An order with the id stands in one of the queues. -/
def Ladder.holds (L : Ladder) (id : OrderId) : Bool :=
  (L .buy ++ L .sell).any fun x => x.order.id = id

def Ladder.answer (L : Ladder) : Call → Except Failure Answer
  | .add none => .error (.invalidArgument "Cannot add a null order")
  | .add (some o) =>
    if Ladder.holds L o.1.id then .error (.invalidArgument "Order ID is already active")
    else .ok (.trades (Ladder.trades L o.1))
  | .cancel id => .ok (.cancelled (Ladder.holds L id))

def Ladder.next (L : Ladder) : Call → Ladder
  | .add none => L
  | .add (some o) => if Ladder.holds L o.1.id then L else Ladder.add L o.1
  | .cancel id => Ladder.cancel L id

def Ladder.answers (L : Ladder) : List Call → List (Except Failure Answer)
  | [] => []
  | c :: calls => Ladder.answer L c :: Ladder.answers (Ladder.next L c) calls

theorem holds_iff {L : Ladder} {id : OrderId} :
    Ladder.holds L id = true ↔ ∃ s, ∃ x ∈ L s, x.order.id = id := by
  simp only [Ladder.holds, List.any_eq_true, List.mem_append, decide_eq_true_eq]
  constructor
  · rintro ⟨x, hx | hx, hid⟩
    · exact ⟨.buy, x, hx, hid⟩
    · exact ⟨.sell, x, hx, hid⟩
  · rintro ⟨s, x, hx, hid⟩
    cases s with
    | buy => exact ⟨x, Or.inl hx, hid⟩
    | sell => exact ⟨x, Or.inr hx, hid⟩

theorem cancel_of_not_holds {L : Ladder} {id : OrderId} (h : Ladder.holds L id = false) :
    Ladder.cancel L id = L := by
  funext s
  apply List.filter_eq_self.mpr
  intro x hx
  have hne : x.order.id ≠ id := by
    intro hid
    have hheld := holds_iff.mpr ⟨s, x, hx, hid⟩
    rw [h] at hheld
    cases hheld
  simpa using hne

theorem cancels_filter (L : Ladder) (ids : List OrderId) (s : Side) :
    (ids.map Call.cancel).foldl Ladder.next L s = (L s).filter fun x => x.order.id ∉ ids := by
  induction ids generalizing L with
  | nil => simp
  | cons id ids ih =>
    rw [List.map_cons, List.foldl_cons, ih]
    change ((L s).filter _).filter _ = _
    rw [List.filter_filter]
    apply List.filter_congr
    intro x _
    simp [Bool.and_comm]

variable {b b' : Book} {o : NewOrder} {id : OrderId}

theorem isSome_owned_eq_holds (h : Invariant b) (id : OrderId) :
    (b.ownedOrders id).isSome = Ladder.holds (resting b) id := by
  rw [Bool.eq_iff_iff, holds_iff, isSome_owned_iff_resting h]

theorem not_holds_iff (h : Invariant b) :
    Ladder.holds (resting b) id = false ↔ b.ownedOrders id = none := by
  rw [← isSome_owned_eq_holds h, Option.isSome_eq_false_iff, Option.isNone_iff_eq_none]

/-- The order book answers as the queues say, leaves the queues that they say, and does to
the book what `step` does. -/
theorem call_refines (h : Invariant b) (c : Call) :
    answer b c = Ladder.answer (resting b) c ∧ resting (step b c) = Ladder.next (resting b) c := by
  cases c with
  | add order =>
    cases order with
    | none => exact ⟨rfl, rfl⟩
    | some o =>
      cases hown : b.ownedOrders o.1.id with
      | none =>
        have hfree := (not_holds_iff h).mpr hown
        obtain ⟨b', hrun, _, hadd⟩ := addOrder_refines h o.2 hown
        have hask : (ask (.add (some o))).run b = .ok (.trades (Ladder.trades (resting b) o.1)) b' := by
          rw [ask, Option.map_some, bind_ok hrun]
          rfl
        have hperform : (perform (.add (some o))).run b = .ok _ b' := hrun
        simp only [answer, hask, Ladder.answer, step, hperform, stateAfter, Ladder.next, hfree,
          hadd, Bool.false_eq_true, if_false, and_self]
      | some p =>
        have hsome : (b.ownedOrders o.1.id).isSome := by simp [hown]
        have hheld : Ladder.holds (resting b) o.1.id = true := isSome_owned_eq_holds h _ ▸ hsome
        have hrun := addOrder_rejected hsome
        have hask : (ask (.add (some o))).run b =
            .error (.invalidArgument "Order ID is already active") b := by
          rw [ask, Option.map_some, bind_error hrun]
        have hperform : (perform (.add (some o))).run b = .error _ b := hrun
        simp only [answer, hask, Ladder.answer, step, hperform, stateAfter, Ladder.next, hheld,
          if_true, and_self]
  | cancel id =>
    obtain ⟨b', hrun, _, hcancel⟩ := cancelOrder_refines h id
    rw [isSome_owned_eq_holds h] at hrun
    have hask : (ask (.cancel id)).run b = .ok (.cancelled (Ladder.holds (resting b) id)) b' := by
      rw [ask, bind_ok hrun]
      rfl
    have hperform : (perform (.cancel id)).run b = .ok [] b' := by
      rw [perform, bind_ok hrun]
      rfl
    simp only [answer, hask, Ladder.answer, step, hperform, stateAfter, Ladder.next, hcancel,
      and_self]

theorem answer_eq (h : Invariant b) (c : Call) : answer b c = Ladder.answer (resting b) c :=
  (call_refines h c).1

theorem resting_step (h : Invariant b) (c : Call) :
    resting (step b c) = Ladder.next (resting b) c := (call_refines h c).2

/-- Over a whole run the answers are those of the queues, which the run leaves. -/
theorem run_refines (h : Invariant b) (calls : List Call) :
    answers b calls = Ladder.answers (resting b) calls ∧
      resting (run b calls) = calls.foldl Ladder.next (resting b) := by
  induction calls generalizing b with
  | nil => exact ⟨rfl, rfl⟩
  | cons c calls ih =>
    obtain ⟨hanswers, hrun⟩ := ih (step_invariant h c)
    rw [resting_step h] at hanswers hrun
    exact ⟨by rw [answers, Ladder.answers, answer_eq h, hanswers], hrun⟩

theorem answer_cancel (h : Invariant b) (id : OrderId) :
    answer b (.cancel id) = .ok (.cancelled (Ladder.holds (resting b) id)) := answer_eq h _

/-- The trades of an accepted call are its answer. -/
theorem returned_added (h : Invariant b) (hfree : Ladder.holds (resting b) o.1.id = false) :
    returned ((perform (.add (some o))).run b) = Ladder.trades (resting b) o.1 := by
  obtain ⟨b', hrun, _⟩ := addOrder_refines h o.2 ((not_holds_iff h).mp hfree)
  have hperform : (perform (.add (some o))).run b = .ok _ b' := hrun
  rw [hperform]
  rfl

/-! ## Reading the containers back -/

theorem owned_eq_some_iff (h : Invariant b) {p : Order} :
    b.ownedOrders id = some p ↔ ∃ s, ∃ x ∈ resting b s, x.order = p ∧ p.id = id := by
  constructor
  · intro hp
    obtain ⟨s, price, hm⟩ := (h.owned id p hp).resolve_left nofun
    have hid := (h.placed_of_owned hm hp).named
    exact ⟨s, ⟨price, p⟩, h.mem_resting.mpr ⟨hid.symm ▸ hm, hid.symm ▸ hp⟩, rfl, hid⟩
  · rintro ⟨s, x, hx, rfl, rfl⟩
    exact (h.mem_resting.mp hx).2

theorem located_iff (h : Invariant b) {loc : OrderLocation} :
    b.orderLocation id = some loc ↔
      (∃ x ∈ resting b loc.side, x.price = loc.price ∧ x.order.id = id) ∧ loc.iterator = id := by
  rw [h.located id loc, ← h.resting_places loc.side, List.mem_map]
  simp only [Prod.mk.injEq]

theorem levels_keys_nodup (b : Book) (s : Side) : ((b.levels s).entries.map Prod.fst).Nodup := by
  rw [List.Nodup, List.pairwise_map]
  refine (b.levels s).sorted.imp ?_
  intro e f hlt he
  rw [he] at hlt
  exact irrefl_of (better s) _ hlt

/-- The levels of a side are determined by its queue. -/
theorem levels_ext (h : Invariant b) (h' : Invariant b') {s : Side}
    (hr : resting b' s = resting b s) : b'.levels s = b.levels s := by
  apply OMap.ext
  apply flatten_injective (levels_keys_nodup b' s) (levels_keys_nodup b s) (h'.noEmpty s)
    (h.noEmpty s)
  have hflat : Listed b' s = Listed b s := by
    rw [← h'.resting_places, ← h.resting_places, hr]
  exact hflat

/-- A well-represented book is determined by its queues. -/
theorem book_ext (h : Invariant b) (h' : Invariant b') (hr : resting b' = resting b) : b' = b := by
  have hlevels : ∀ s, b'.levels s = b.levels s := fun s => levels_ext h h' (congrFun hr s)
  have howned : b'.ownedOrders = b.ownedOrders := by
    funext id
    apply Option.ext
    intro p
    simp only [owned_eq_some_iff h', owned_eq_some_iff h, hr]
  have hlocated : b'.orderLocation = b.orderLocation := by
    funext id
    apply Option.ext
    intro loc
    simp only [located_iff h', located_iff h, hr]
  obtain ⟨bids, asks, owned, located⟩ := b
  obtain ⟨bids', asks', owned', located'⟩ := b'
  have hbids : bids' = bids := hlevels .buy
  have hasks : asks' = asks := hlevels .sell
  cases hbids
  cases hasks
  cases howned
  cases hlocated
  rfl

end LadderRuns
