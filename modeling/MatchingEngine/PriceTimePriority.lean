import MatchingEngine.BookRuns

/-! # Price-time priority over runs

A trade is tied to the calls of the run, not to the lists: no order on the resting side
has a better price, or the same price and an earlier accepted call. -/
namespace PriceTimePriority

open EngineTypes
open Orders
open OrderedMap
open OrderBook
open PriceTimeBook
open BookInvariant
open MatchingPass
open BookRefinement
open BookRuns

/-! ## Arrival -/

/-- The call at position `i` is an accepted `addOrder` of `id`. -/
def AcceptedAt (calls : List Call) (i : ℕ) (id : OrderId) : Prop :=
  ∃ o : NewOrder, calls[i]? = some (.add (some o)) ∧ o.1.id = id ∧
    accepted (run emptyBook (calls.take i)) o.1 = true

/-- The order that now has this id was accepted at position `i`, its last accepted call. -/
def ArrivedAt (calls : List Call) (id : OrderId) (i : ℕ) : Prop :=
  AcceptedAt calls i id ∧ ∀ k, AcceptedAt calls k id → k ≤ i

def Earlier (calls : List Call) (a c : OrderId) : Prop :=
  ∃ i j, ArrivedAt calls a i ∧ ArrivedAt calls c j ∧ i < j

/-- Better price first, and within a price in order of arrival. -/
def Ranked (calls : List Call) (s : Side) (x y : LimitPrice × OrderId) : Prop :=
  better s x.1 y.1 ∨ x.1 = y.1 ∧ Earlier calls x.2 y.2

/-! ## The moments of trades -/

/-- The trading passes of the loop, each with the book it begins in. -/
def tradingPasses (br : Branch) (incoming : OrderId) : ℕ → Book → List (Book × Trade)
  | 0, _ => []
  | fuel + 1, b =>
    match (matchOnce br incoming).run b with
    | .ok (some t) b' => (b, t) :: tradingPasses br incoming fuel b'
    | _ => []

/-- A trade of a run: the calls before its own, its book, and the resting party's side. -/
structure Moment where
  before : List Call
  book : Book
  side : Side
  trade : Trade

def callMoments (before : List Call) : Call → List Moment
  | .add (some o) =>
    let b := run emptyBook before
    if accepted b o.1 then
      (tradingPasses (branch o.1.side) o.1.id (passes (received b o.1) o.1.side.opposite)
        (received b o.1)).map fun p => ⟨before, p.1, o.1.side.opposite, p.2⟩
    else []
  | _ => []

def moments (before : List Call) : List Call → List Moment
  | [] => []
  | c :: calls => callMoments before c ++ moments (before ++ [c]) calls

def party (t : Trade) : Side → OrderId
  | .buy => t.buyOrderId
  | .sell => t.sellOrderId

/-- The resting party `B` of a trade has priority over every order `A` on its side. -/
def HasPriority (m : Moment) : Prop :=
  ∃ B ∈ resting m.book m.side, B.order.id = party m.trade m.side ∧ B.price = m.trade.price ∧
    ∃ j, ArrivedAt m.before B.order.id j ∧ ∀ A ∈ resting m.book m.side,
      ¬ better m.side A.price B.price ∧
        ∃ i, ArrivedAt m.before A.order.id i ∧ (A.price = B.price → j ≤ i)

/-! ## Arrival over one more call -/

section

variable {calls : List Call} {c : Call} {id : OrderId} {i : ℕ}

theorem acceptedAt_lt (h : AcceptedAt calls i id) : i < calls.length := by
  obtain ⟨o, ho, _⟩ := h
  exact (List.getElem?_eq_some_iff.mp ho).1

/-- What holds at a position of a longer list held there before, or it holds of the last item. -/
theorem at_concat {α : Type*} {xs : List α} {x : α} {i : ℕ} {P : List α → α → Prop} :
    (∃ a, (xs ++ [x])[i]? = some a ∧ P ((xs ++ [x]).take i) a) ↔
      (∃ a, xs[i]? = some a ∧ P (xs.take i) a) ∨ i = xs.length ∧ P xs x := by
  rcases lt_trichotomy i xs.length with hlt | heq | hgt
  · rw [List.getElem?_append_left hlt, List.take_append_of_le_length hlt.le]
    simp [hlt.ne]
  · subst heq
    simp
  · have hnone : xs[i]? = none := List.getElem?_eq_none hgt.le
    have hnone' : (xs ++ [x])[i]? = none := List.getElem?_eq_none (by simp; omega)
    simp [hnone, hnone', hgt.ne']

theorem acceptedAt_iff : AcceptedAt calls i id ↔ ∃ c, calls[i]? = some c ∧ ∃ o : NewOrder,
    c = .add (some o) ∧ o.1.id = id ∧ accepted (run emptyBook (calls.take i)) o.1 = true := by
  constructor
  · rintro ⟨o, ho, hid⟩
    exact ⟨_, ho, o, rfl, hid⟩
  · rintro ⟨_, ho, o, rfl, hid⟩
    exact ⟨o, ho, hid⟩

theorem acceptedAt_concat : AcceptedAt (calls ++ [c]) i id ↔
    AcceptedAt calls i id ∨ i = calls.length ∧ ∃ o : NewOrder, c = .add (some o) ∧
      o.1.id = id ∧ accepted (run emptyBook calls) o.1 = true := by
  rw [acceptedAt_iff, acceptedAt_iff]
  exact at_concat (P := fun before c => ∃ o : NewOrder, c = .add (some o) ∧ o.1.id = id ∧
    accepted (run emptyBook before) o.1 = true)

theorem arrivedAt_concat (h : ArrivedAt calls id i)
    (hc : ∀ o : NewOrder, c = .add (some o) → o.1.id = id →
      accepted (run emptyBook calls) o.1 = false) : ArrivedAt (calls ++ [c]) id i := by
  refine ⟨acceptedAt_concat.mpr (Or.inl h.1), ?_⟩
  intro k hk
  rcases acceptedAt_concat.mp hk with hk | ⟨_, o, ho, hid, hacc⟩
  · exact h.2 k hk
  · rw [hc o ho hid] at hacc
    cases hacc

theorem arrivedAt_last (o : NewOrder) (hacc : accepted (run emptyBook calls) o.1 = true) :
    ArrivedAt (calls ++ [.add (some o)]) o.1.id calls.length := by
  refine ⟨acceptedAt_concat.mpr (Or.inr ⟨rfl, o, rfl, rfl, hacc⟩), ?_⟩
  intro k hk
  rcases acceptedAt_concat.mp hk with hk | ⟨hk, _⟩
  · exact (acceptedAt_lt hk).le
  · exact hk.le

end

/-- Every resting order has arrived, and each side is ranked. -/
structure InOrder (calls : List Call) (b : Book) : Prop where
  arrived : ∀ s, ∀ x ∈ Listed b s, ∃ i, ArrivedAt calls x.2 i
  ranked : ∀ s, (Listed b s).Pairwise (Ranked calls s)

section

variable {calls : List Call} {b b' : Book}

/-- Losing orders, and arrivals that stay, keep the order. -/
theorem InOrder.shrink {calls' : List Call} (h : InOrder calls b)
    (hsub : ∀ s, (Listed b' s).Sublist (Listed b s))
    (hkeep : ∀ s, ∀ x ∈ Listed b s, ∀ i, ArrivedAt calls x.2 i → ArrivedAt calls' x.2 i) :
    InOrder calls' b' := by
  constructor
  · intro s x hx
    obtain ⟨i, hi⟩ := h.arrived s x ((hsub s).subset hx)
    exact ⟨i, hkeep s x ((hsub s).subset hx) i hi⟩
  · intro s
    refine List.Pairwise.imp_of_mem ?_ ((h.ranked s).sublist (hsub s))
    rintro x y hx hy (hlt | ⟨heq, i, j, hi, hj, hij⟩)
    · exact Or.inl hlt
    · exact Or.inr ⟨heq, i, j, hkeep s x ((hsub s).subset hx) i hi,
        hkeep s y ((hsub s).subset hy) j hj, hij⟩

/-- The leftover arrives last, at the tail of its level. -/
theorem InOrder.insert (s : Side) (price : LimitPrice) {o : NewOrder} (h : InOrder calls b)
    (hacc : accepted (run emptyBook calls) o.1 = true) (hfree : ∀ s, ∀ x ∈ Listed b s, x.2 ≠ o.1.id)
    (hown : Listed b' s = (Listed b s).orderedInsert (fun x y => better s x.1 y.1) (price, o.1.id))
    (hopp : (Listed b' s.opposite).Sublist (Listed b s.opposite)) :
    InOrder (calls ++ [.add (some o)]) b' := by
  have hkeep : ∀ s, ∀ x ∈ Listed b s, ∀ i, ArrivedAt calls x.2 i →
      ArrivedAt (calls ++ [.add (some o)]) x.2 i := by
    intro s x hx i hi
    apply arrivedAt_concat hi
    intro o' ho' hid
    cases ho'
    exact absurd hid.symm (hfree s x hx)
  have hlast := arrivedAt_last o hacc
  have hshrunk : InOrder (calls ++ [.add (some o)]) b := h.shrink (fun _ => .refl _) hkeep
  constructor
  · intro s' x hx
    by_cases hs : s' = s
    · subst hs
      rw [hown, List.mem_orderedInsert] at hx
      rcases hx with rfl | hx
      · exact ⟨_, hlast⟩
      · exact hshrunk.arrived s' x hx
    · rw [eq_opposite_of_ne hs] at hx
      exact hshrunk.arrived _ x (hopp.subset hx)
  · intro s'
    by_cases hs : s' = s
    · subst hs
      rw [hown]
      apply pairwise_orderedInsert (hshrunk.ranked s')
      · exact fun y _ hlt => Or.inl hlt
      · intro y hy hn
        rcases trichotomous_of (better s') y.1 price with hlt | heq | hgt
        · exact Or.inl hlt
        · obtain ⟨i, hi⟩ := h.arrived s' y hy
          exact Or.inr ⟨heq, i, _, hkeep s' y hy i hi, hlast, acceptedAt_lt hi.1⟩
        · exact absurd hgt hn
      · rintro y _ z _ (hlt | ⟨heq, _⟩) hxy
        · exact IsTrans.trans _ _ _ hxy hlt
        · exact heq ▸ hxy
    · rw [eq_opposite_of_ne hs]
      exact (hshrunk.ranked _).sublist hopp

theorem listed_sublist_of_suffix (h : Invariant b) (h' : Invariant b') {s : Side}
    (hs : (resting b' s).map (fun x => (x.price, x.order.id)) <:+
      (resting b s).map fun x => (x.price, x.order.id)) :
    (Listed b' s).Sublist (Listed b s) := by
  rw [← h.resting_places s, ← h'.resting_places s]
  exact hs.sublist

theorem swept_suffix (o : Order) (left : ℤ) (queue : List RestingOrder) :
    ((Allocation.sweep RestingOrder.size (accepts o) RestingOrder.fill left queue).2.map
      fun x => (x.price, x.order.id)) <:+ queue.map fun x => (x.price, x.order.id) := by
  apply Allocation.sweep_suffix
  intro x t
  rfl

/-- Every call keeps every side ranked. -/
theorem inOrder_step (h : Invariant (run emptyBook calls))
    (ho : InOrder calls (run emptyBook calls)) (c : Call) :
    InOrder (calls ++ [c]) (run emptyBook (calls ++ [c])) := by
  rw [run_concat]
  obtain ⟨hstep, hinv⟩ := step_cases h c
  generalize hb' : step (run emptyBook calls) c = b' at hstep hinv
  generalize returned ((perform c).run (run emptyBook calls)) = ts at hstep
  cases hstep with
  | null =>
    refine ho.shrink (fun _ => .refl _) fun _ x _ i hi => arrivedAt_concat hi ?_
    intro o hc
    cases hc
  | rejected o hown =>
    refine ho.shrink (fun _ => .refl _) fun _ x _ i hi => arrivedAt_concat hi ?_
    intro o' hc _
    cases hc
    exact not_accepted h hown
  | added o _ hfree hadd =>
    have hacc := (accepted_iff h).mpr hfree
    have hids : ∀ s, ∀ x ∈ Listed (run emptyBook calls) s, x.2 ≠ o.1.id :=
      fun s x hx hid => not_listed_of_free h hfree s x.1 (hid ▸ hx)
    have hopp : (Listed b' o.1.side.opposite).Sublist
        (Listed (run emptyBook calls) o.1.side.opposite) := by
      apply listed_sublist_of_suffix h hinv
      rw [hadd, add_opposite]
      exact swept_suffix o.1 _ _
    have hside : resting b' o.1.side = place o.1.side
        (rested o.1 (leftover (resting (run emptyBook calls)) o.1))
        (resting (run emptyBook calls) o.1.side) := by
      rw [hadd, add_own]
    cases hr : rested o.1 (leftover (resting (run emptyBook calls)) o.1) with
    | none =>
      refine ho.shrink ?_ fun s x hx i hi => arrivedAt_concat hi ?_
      · intro s
        by_cases hs : s = o.1.side
        · subst hs
          rw [← h.resting_places, ← hinv.resting_places, hside, hr, place]
        · rw [eq_opposite_of_ne hs]
          exact hopp
      · intro o' hc hid
        cases hc
        exact absurd hid.symm (hids s x hx)
    | some x =>
      obtain ⟨hx, _, _⟩ := rested_eq_some hr
      have hid : x.order.id = o.1.id := by
        rw [hx]
        rfl
      refine InOrder.insert o.1.side x.price ho hacc hids ?_ hopp
      rw [← h.resting_places, ← hinv.resting_places, hside, hr, place, ← hid]
      apply List.map_orderedInsert <;> exact fun _ _ => Iff.rfl
  | cancelled id _ hcancel =>
    refine ho.shrink ?_ fun _ x _ i hi => arrivedAt_concat hi ?_
    · intro s
      rw [← h.resting_places s, ← hinv.resting_places s, hcancel]
      exact List.filter_sublist.map _
    · intro o hc
      cases hc

theorem inOrder_run (calls : List Call) : InOrder calls (run emptyBook calls) := by
  induction calls using List.reverseRecOn with
  | nil =>
    constructor
    · intro s
      cases s <;> simp [run, emptyBook, Book.levels, OMap.empty, OMap.flat]
    · intro s
      cases s <;> simp [run, emptyBook, Book.levels, OMap.empty, OMap.flat]
  | append_singleton calls c ih => exact inOrder_step (run_invariant calls) ih c

end

/-! ## What the passes trade with -/

theorem tradingPasses_trades {br : Branch} {incoming : OrderId} {fuel : ℕ} {b b' : Book}
    {ts : List Trade} (h : (matchLoop br incoming fuel).run b = .ok ts b') :
    (tradingPasses br incoming fuel b).map Prod.snd = ts := by
  induction fuel generalizing b ts with
  | zero => cases h
  | succ fuel ih =>
    rw [matchLoop] at h
    cases hp : (matchOnce br incoming).run b with
    | error f b₁ =>
      rw [bind_error hp] at h
      cases h
    | ok r b₁ =>
      rw [bind_ok hp] at h
      cases r with
      | none =>
        cases h
        simp [tradingPasses, hp]
      | some t =>
        simp only at h
        cases hrest : (matchLoop br incoming fuel).run b₁ with
        | error f b₂ =>
          rw [bind_error hrest] at h
          cases h
        | ok ts' b₂ =>
          rw [bind_ok hrest] at h
          cases h
          simp only [tradingPasses, hp, List.map_cons, ih hrest]

/-- A pass trades with the head of a queue that is the rest of the first one. -/
theorem tradingPasses_head {taker : Order} {fuel : ℕ} : ∀ {b : Book} {left : ℤ},
    Matching b taker left →
    ∀ p ∈ tradingPasses (branch taker.side) taker.id fuel b, ∃ x xs,
      resting p.1 taker.side.opposite = x :: xs ∧
      (x :: xs).map (fun x => (x.price, x.order.id)) <:+
        (resting b taker.side.opposite).map (fun x => (x.price, x.order.id)) ∧
      party p.2 taker.side.opposite = x.order.id ∧ p.2.price = x.price := by
  induction fuel with
  | zero =>
    intro b left _ p hp
    cases hp
  | succ fuel ih =>
    intro b left hm p hp
    have stopped : ((matchOnce (branch taker.side) taker.id).run b = .ok none b) → False := by
      intro hstop
      simp [tradingPasses, hstop] at hp
    cases hr : resting b taker.side.opposite with
    | nil => exact (stopped (hm.stop (Or.inr (Or.inl hr)))).elim
    | cons x xs =>
      by_cases ha : accepts taker x = true
      · rcases hm.nonneg.eq_or_lt with h0 | h0
        · exact (stopped (hm.stop (Or.inl h0.symm))).elim
        · obtain ⟨b', hrun, hm', hopp, _⟩ := hm.pass hr h0 ha
          simp only [tradingPasses, hrun, List.mem_cons] at hp
          rcases hp with rfl | hp
          · refine ⟨x, xs, hr, List.suffix_rfl, ?_, ?_⟩
            · cases hs : taker.side <;> simp [tradeOf, hs, party, Side.opposite]
            · cases hs : taker.side <;> simp [tradeOf, hs]
          · obtain ⟨y, ys, hy, hsuf, hparty, hprice⟩ := ih hm' p hp
            refine ⟨y, ys, hy, hsuf.trans ?_, hparty, hprice⟩
            rw [hopp]
            split
            · exact List.suffix_cons _ _
            · simp
      · exact (stopped (hm.stop (Or.inr (Or.inr ⟨x, xs, hr, by simpa using ha⟩)))).elim

theorem callMoments_trades (before : List Call) (c : Call) :
    (callMoments before c).map Moment.trade =
      returned ((perform c).run (run emptyBook before)) := by
  have h := run_invariant before
  cases c with
  | cancel id =>
    obtain ⟨b', hrun, _⟩ := cancelOrder_refines h id
    rw [perform, bind_ok hrun]
    rfl
  | add order =>
    cases order with
    | none => rfl
    | some o =>
      cases hown : (run emptyBook before).ownedOrders o.1.id with
      | some o' =>
        have hacc := not_accepted (o := o) h (by simp [hown])
        have hrun := addOrder_rejected (b := run emptyBook before) (o := o.1) (by simp [hown])
        simp [callMoments, hacc, perform, hrun, returned]
      | none =>
        have hacc := (accepted_iff h).mpr hown
        obtain ⟨b₁, hmatch, _⟩ := matchIncoming_ok h o.2 hown
        obtain ⟨b', hrun, _⟩ := addOrder_refines h o.2 hown
        have hloop : (matchLoop (branch o.1.side) o.1.id
            (passes (received (run emptyBook before) o.1) o.1.side.opposite)).run
            (received (run emptyBook before) o.1) =
            .ok (Ladder.trades (resting (run emptyBook before)) o.1) b₁ := by
          rw [matchIncoming, bind_ok (deref_ok (o := o.1) (by simp [received]))] at hmatch
          simp only at hmatch
          rw [bind_ok (get_ok _), branch_opposite] at hmatch
          exact hmatch
        simp only [callMoments, hacc, if_true, List.map_map, perform, Option.map_some, hrun,
          returned]
        exact tradingPasses_trades hloop

theorem callMoments_priority (before : List Call) (c : Call) :
    ∀ m ∈ callMoments before c, HasPriority m := by
  have h := run_invariant before
  intro m hm
  cases c with
  | cancel id => cases hm
  | add order =>
    cases order with
    | none => cases hm
    | some o =>
      simp only [callMoments] at hm
      split at hm
      · rename_i hacc
        obtain ⟨p, hp, rfl⟩ := List.mem_map.mp hm
        have hfree := (accepted_iff h).mp hacc
        have hmatching := matching_received h hfree o.2
        obtain ⟨x, xs, hr, hsuf, hparty, hprice⟩ := tradingPasses_head hmatching p hp
        rw [resting_received h hfree, h.resting_places] at hsuf
        have horder := inOrder_run before
        have hranked := (horder.ranked o.1.side.opposite).sublist hsuf.sublist
        have harrived : ∀ y ∈ x :: xs, ∃ i, ArrivedAt before y.order.id i := fun y hy =>
          horder.arrived _ _ (hsuf.subset (List.mem_map.mpr ⟨y, hy, rfl⟩))
        obtain ⟨j, hj⟩ := harrived x (by simp)
        refine ⟨x, by simp [hr], hparty.symm, hprice.symm, j, hj, ?_⟩
        intro A hA
        simp only [hr] at hA
        obtain ⟨i, hi⟩ := harrived A hA
        rw [List.map_cons, List.pairwise_cons] at hranked
        rcases List.mem_cons.mp hA with rfl | hA
        · exact ⟨irrefl_of (better _) _, j, hj, fun _ => le_rfl⟩
        · rcases hranked.1 _ (List.mem_map.mpr ⟨A, hA, rfl⟩) with hlt | ⟨heq, i', j', hi', hj', hlt⟩
          · refine ⟨fun hgt => irrefl_of (better _) _ (IsTrans.trans _ _ _ hlt hgt), i, hi, ?_⟩
            intro he
            exact absurd (he ▸ hlt) (irrefl_of (better _) _)
          · have hprices : x.price = A.price := heq
            refine ⟨fun hgt => ?_, j', hj', fun _ => (hi'.2 j hj.1).trans hlt.le⟩
            rw [hprices] at hgt
            exact irrefl_of (better _) _ hgt
      · cases hm

/-- In every run, each trade is a moment of the run and its resting party has priority. -/
theorem price_time_priority (calls : List Call) :
    (moments [] calls).map Moment.trade = trades emptyBook calls ∧
      ∀ m ∈ moments [] calls, HasPriority m := by
  have main : ∀ (calls before : List Call),
      (moments before calls).map Moment.trade = trades (run emptyBook before) calls ∧
        ∀ m ∈ moments before calls, HasPriority m := by
    intro calls
    induction calls with
    | nil =>
      intro before
      exact ⟨rfl, by simp [moments]⟩
    | cons c calls ih =>
      intro before
      obtain ⟨htrades, hpriority⟩ := ih (before ++ [c])
      constructor
      · rw [moments, trades, List.map_append, callMoments_trades, htrades, run_concat]
      · intro m hm
        rcases List.mem_append.mp hm with hm | hm
        · exact callMoments_priority before c m hm
        · exact hpriority m hm
  exact main calls []

end PriceTimePriority
