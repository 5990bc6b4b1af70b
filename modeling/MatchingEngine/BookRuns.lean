import Mathlib.Data.List.Induction
import Mathlib.Order.Bounds.Basic
import MatchingEngine.BookRefinement

/-! # Runs of calls on one book

A run is any finite sequence of `addOrder` and `cancelOrder` calls, made one after the
other from the empty book. A call that throws leaves the state it threw in. -/
namespace BookRuns

open EngineTypes
open Orders
open OrderedMap
open OrderBook
open PriceTimeBook
open BookInvariant
open BookRefinement

inductive Call where
  | add (order : Option NewOrder)
  | cancel (id : OrderId)

/-- The call, with the trades it returns. -/
def perform : Call → BookM (List Trade)
  | .add order => addOrder (order.map Subtype.val)
  | .cancel id => do
    let _ ← cancelOrder id
    return []

def stateAfter {ε σ α : Type} : EStateM.Result ε σ α → σ
  | .ok _ s => s
  | .error _ s => s

def returned {ε σ α : Type} : EStateM.Result ε σ (List α) → List α
  | .ok ts _ => ts
  | .error _ _ => []

def step (b : Book) (c : Call) : Book := stateAfter ((perform c).run b)

def run (b : Book) (calls : List Call) : Book := calls.foldl step b

/-- The trades that the calls of a run return, in order. -/
def trades (b : Book) : List Call → List Trade
  | [] => []
  | c :: calls => returned ((perform c).run b) ++ trades (step b c) calls

def accepted (b : Book) (o : Order) : Bool :=
  match (addOrder (some o)).run b with
  | .ok _ _ => true
  | .error _ _ => false

@[simp] theorem run_nil (b : Book) : run b [] = b := rfl

@[simp] theorem run_concat (b : Book) (calls : List Call) (c : Call) :
    run b (calls ++ [c]) = step (run b calls) c := by
  simp [run]

theorem trades_append (b : Book) (calls : List Call) (c : Call) :
    trades b (calls ++ [c]) = trades b calls ++ returned ((perform c).run (run b calls)) := by
  induction calls generalizing b with
  | nil => simp [trades]
  | cons d calls ih =>
    have h := ih (step b d)
    simp only [List.cons_append, trades, h, run, List.foldl_cons, List.append_assoc]

variable {b : Book} {o : NewOrder} {id : OrderId}

/-! ## What a call does -/

theorem accepted_iff (h : Invariant b) : accepted b o = true ↔ b.ownedOrders o.1.id = none := by
  cases hown : b.ownedOrders o.1.id with
  | none =>
    obtain ⟨b', hrun, _⟩ := addOrder_refines h o.2 hown
    simp [accepted, hrun]
  | some o' => simp [accepted, addOrder_rejected (by simp [hown] : (b.ownedOrders o.1.id).isSome)]

theorem not_accepted (h : Invariant b) (hown : (b.ownedOrders o.1.id).isSome) :
    accepted b o = false := by
  rw [Bool.eq_false_iff]
  intro hacc
  rw [(accepted_iff h).mp hacc] at hown
  cases hown

/-- A call is a rejected add, an accepted add, or a cancel. -/
inductive CallSteps (b : Book) : Call → List Trade → Book → Prop
  | null : CallSteps b (.add none) [] b
  | rejected (o : NewOrder) (hown : (b.ownedOrders o.1.id).isSome) :
      CallSteps b (.add (some o)) [] b
  | added (o : NewOrder) (b' : Book) (hfree : b.ownedOrders o.1.id = none)
      (hadd : resting b' = Ladder.add (resting b) o.1) :
      CallSteps b (.add (some o)) (Ladder.trades (resting b) o.1) b'
  | cancelled (id : OrderId) (b' : Book) (hcancel : resting b' = Ladder.cancel (resting b) id) :
      CallSteps b (.cancel id) [] b'

theorem step_cases (h : Invariant b) (c : Call) :
    CallSteps b c (returned ((perform c).run b)) (step b c) ∧ Invariant (step b c) := by
  cases c with
  | add order =>
    cases order with
    | none => exact ⟨.null, h⟩
    | some o =>
      cases hown : b.ownedOrders o.1.id with
      | none =>
        obtain ⟨b', hrun, hinv, hadd⟩ := addOrder_refines h o.2 hown
        have hp : (perform (.add (some o))).run b = .ok (Ladder.trades (resting b) o.1) b' := hrun
        rw [step, hp]
        exact ⟨.added o b' hown hadd, hinv⟩
      | some o' =>
        have hs : (b.ownedOrders o.1.id).isSome := by simp [hown]
        have hp : (perform (.add (some o))).run b =
            .error (.invalidArgument "Order ID is already active") b := addOrder_rejected hs
        rw [step, hp]
        exact ⟨.rejected o hs, h⟩
  | cancel id =>
    obtain ⟨b', hrun, hinv, hcancel⟩ := cancelOrder_refines h id
    have hp : (perform (.cancel id)).run b = .ok [] b' := by
      rw [perform, bind_ok hrun]
      rfl
    rw [step, hp]
    exact ⟨.cancelled id b' hcancel, hinv⟩

theorem step_invariant (h : Invariant b) (c : Call) : Invariant (step b c) := (step_cases h c).2

theorem invariant_run (h : Invariant b) (calls : List Call) : Invariant (run b calls) := by
  induction calls using List.reverseRecOn with
  | nil => exact h
  | append_singleton calls c ih =>
    rw [run_concat]
    exact step_invariant ih c

theorem run_invariant (calls : List Call) : Invariant (run emptyBook calls) :=
  invariant_run invariant_empty calls

/-! ## The representation -/

theorem resting_sorted (h : Invariant b) (s : Side) :
    (resting b s).Pairwise fun x y => x.price = y.price ∨ better s x.price y.price := by
  have hp := (b.levels s).flat_pairwise
  change (Listed b s).Pairwise _ at hp
  rw [← h.resting_places s, List.pairwise_map] at hp
  exact hp

theorem begin?_eq_head (h : Invariant b) (s : Side) :
    (b.levels s).begin?.map Prod.fst = (resting b s).head?.map RestingOrder.price := by
  cases hr : resting b s with
  | nil => simp [begin?_of_resting_nil h hr]
  | cons x xs =>
    obtain ⟨l, rest, he⟩ := entries_of_resting_cons h hr
    simp [OMap.begin?, he]

theorem head_best (h : Invariant b) {s : Side} {x : RestingOrder} {xs : List RestingOrder}
    (hr : resting b s = x :: xs) :
    ∀ y ∈ resting b s, y.price = x.price ∨ better s x.price y.price := by
  intro y hy
  have hs := resting_sorted h s
  rw [hr, List.pairwise_cons] at hs
  rw [hr] at hy
  rcases List.mem_cons.mp hy with rfl | hy
  · exact Or.inl rfl
  · exact (hs.1 y hy).imp Eq.symm id

/-- What the five containers of a book owe each other. -/
structure Representation (b : Book) : Prop where
  noEmptyLevel : ∀ s, ∀ e ∈ (b.levels s).entries, e.2 ≠ []
  listed : ∀ s, ∀ e ∈ (b.levels s).entries, ∀ id ∈ e.2, ∃ o, b.ownedOrders id = some o ∧
    o.id = id ∧ o.side = s ∧ o.price = some e.1 ∧ 0 < o.remainingQty ∧
    o.remainingQty ≤ o.quantity ∧ (o.status = .opened ↔ o.remainingQty = o.quantity) ∧
    (o.status = .partiallyFilled ↔ o.remainingQty ≠ o.quantity)
  noneTwice : ((Listed b .buy ++ Listed b .sell).map Prod.snd).Nodup
  ownedKeys : ∀ id, (b.ownedOrders id).isSome ↔ ∃ s, ∃ e ∈ (b.levels s).entries, id ∈ e.2
  locationKeys : ∀ id, (b.orderLocation id).isSome ↔ ∃ s, ∃ e ∈ (b.levels s).entries, id ∈ e.2
  location : ∀ id loc, b.orderLocation id = some loc →
    ∃ l, (b.levels loc.side).find loc.price = some l ∧ loc.iterator ∈ l ∧ loc.iterator = id
  bestBid : ∀ p, getBestBid b = some p ↔
    IsGreatest {q | ∃ x ∈ resting b .buy, x.order.price = some q} p
  bestAsk : ∀ p, getBestAsk b = some p ↔
    IsLeast {q | ∃ x ∈ resting b .sell, x.order.price = some q} p
  hasBid : (getBestBid b).isSome ↔ resting b .buy ≠ []
  hasAsk : (getBestAsk b).isSome ↔ resting b .sell ≠ []

theorem mem_entries_iff_listed (s : Side) (id : OrderId) :
    (∃ e ∈ (b.levels s).entries, id ∈ e.2) ↔ ∃ price, (price, id) ∈ Listed b s := by
  simp only [Listed, OMap.flat, mem_flatten]
  constructor
  · rintro ⟨⟨price, l⟩, he, hid⟩
    exact ⟨price, l, he, hid⟩
  · rintro ⟨price, l, he, hid⟩
    exact ⟨(price, l), he, hid⟩

theorem owned_iff_listed (h : Invariant b) (id : OrderId) :
    (b.ownedOrders id).isSome ↔ ∃ s, ∃ e ∈ (b.levels s).entries, id ∈ e.2 := by
  simp only [mem_entries_iff_listed, Option.isSome_iff_exists]
  constructor
  · rintro ⟨o, ho⟩
    exact (h.owned id o ho).resolve_left nofun
  · rintro ⟨s, price, hm⟩
    obtain ⟨o, ho, _⟩ := h.placed s price id hm
    exact ⟨o, ho⟩

theorem placed_listed {s : Side} {price : LimitPrice} {o : Order} (hp : Placed s price id o) :
    o.id = id ∧ o.side = s ∧ o.price = some price ∧ 0 < o.remainingQty ∧
      o.remainingQty ≤ o.quantity ∧ (o.status = .opened ↔ o.remainingQty = o.quantity) ∧
      (o.status = .partiallyFilled ↔ o.remainingQty ≠ o.quantity) := by
  have hpos : 0 < o.remainingQty := by
    rw [Int32.lt_iff_toInt_lt, Int32.toInt_zero]
    exact hp.positive
  refine ⟨hp.named, hp.side, hp.price, hpos, Int32.le_iff_toInt_le.mpr hp.bounded, ?_, ?_⟩
  · rw [hp.status]
    by_cases hq : o.remainingQty = o.quantity <;> simp [hq]
  · rw [hp.status]
    by_cases hq : o.remainingQty = o.quantity <;> simp [hq]

theorem mem_prices (h : Invariant b) {s : Side} {q : LimitPrice} :
    (∃ x ∈ resting b s, x.order.price = some q) ↔ ∃ x ∈ resting b s, x.price = q := by
  constructor
  · rintro ⟨x, hx, hp⟩
    exact ⟨x, hx, Option.some.inj ((h.placed_of_resting hx).price.symm.trans hp)⟩
  · rintro ⟨x, hx, rfl⟩
    exact ⟨x, hx, (h.placed_of_resting hx).price⟩

/-- The first level's price is the best over the side. -/
theorem begin?_price_iff (h : Invariant b) (s : Side) (p : LimitPrice) :
    (b.levels s).begin?.map Prod.fst = some p ↔
      (∃ x ∈ resting b s, x.price = p) ∧ ∀ x ∈ resting b s, ¬ better s x.price p := by
  rw [begin?_eq_head h s]
  cases hr : resting b s with
  | nil => simp
  | cons x xs =>
    have hbest := head_best h hr
    rw [hr] at hbest
    simp only [List.head?_cons, Option.map_some, Option.some.injEq]
    constructor
    · rintro rfl
      refine ⟨⟨x, by simp, rfl⟩, ?_⟩
      intro y hy hlt
      rcases hbest y hy with heq | hgt
      · exact irrefl_of (better s) x.price (heq ▸ hlt)
      · exact irrefl_of (better s) x.price (IsTrans.trans _ _ _ hgt hlt)
    · rintro ⟨⟨y, hy, rfl⟩, hno⟩
      rcases hbest y hy with heq | hgt
      · exact heq.symm
      · exact absurd hgt (hno x (by simp))

/-- Every reachable book is well represented. -/
theorem reachable_representation (calls : List Call) : Representation (run emptyBook calls) := by
  have h := run_invariant calls
  constructor
  · exact h.noEmpty
  · intro s e he id hid
    obtain ⟨o, ho, hp⟩ := h.placed s e.1 id (mem_flatten.mpr ⟨e.2, he, hid⟩)
    exact ⟨o, ho, placed_listed hp⟩
  · rw [List.map_append, List.nodup_append']
    refine ⟨h.nodup .buy, h.nodup .sell, ?_⟩
    intro id hbuy hsell
    obtain ⟨a, ha, rfl⟩ := List.mem_map.mp hbuy
    obtain ⟨c, hc, hid⟩ := List.mem_map.mp hsell
    have hc' : (c.1, a.2) ∈ Listed (run emptyBook calls) .sell := hid ▸ hc
    cases (h.unique_place ha hc').1
  · exact owned_iff_listed h
  · intro id
    rw [← isSome_owned_iff_located h, owned_iff_listed h]
  · intro id loc hloc
    obtain ⟨hm, rfl⟩ := (h.located id loc).mp hloc
    obtain ⟨l, hf, hl⟩ := OMap.mem_flat.mp hm
    exact ⟨l, hf, hl, rfl⟩
  · intro p
    simp only [mem_prices h]
    rw [getBestBid, show (run emptyBook calls).bids = (run emptyBook calls).levels .buy from rfl,
      begin?_price_iff h .buy]
    simp only [IsGreatest, upperBounds, Set.mem_ofPred_eq, forall_exists_index, and_imp,
      forall_apply_eq_imp_iff₂, better, gt_iff_lt, not_lt]
  · intro p
    simp only [mem_prices h]
    rw [getBestAsk, show (run emptyBook calls).asks = (run emptyBook calls).levels .sell from rfl,
      begin?_price_iff h .sell]
    simp only [IsLeast, lowerBounds, Set.mem_ofPred_eq, forall_exists_index, and_imp,
      forall_apply_eq_imp_iff₂, better, not_lt]
  · rw [getBestBid, show (run emptyBook calls).bids = (run emptyBook calls).levels .buy from rfl,
      begin?_eq_head h .buy]
    cases resting (run emptyBook calls) .buy <;> simp
  · rw [getBestAsk, show (run emptyBook calls).asks = (run emptyBook calls).levels .sell from rfl,
      begin?_eq_head h .sell]
    cases resting (run emptyBook calls) .sell <;> simp

end BookRuns
