import MatchingEngine.FillsExtend
import MatchingEngine.LadderRuns
import MatchingEngine.PriceTimeAllocation
import MatchingEngine.UnitByUnit

/-! # Best execution

Share by share, no other way to fill an order from the book has a better price, and no share gets
cheaper when resting orders are cancelled first. -/
namespace BestExecution

open EngineTypes
open Orders
open OrderBook
open PriceTimeBook
open BookInvariant
open BookRefinement
open BookRuns
open LadderRuns
open ShareConservation
open FillsExtend
open Allocation

/-- For a taker on `side`, the price `p` is at least as good as `p'`. -/
def NoWorse (side : Side) (p p' : LimitPrice) : Prop := p = p' ∨ better side.opposite p p'

/-- The price of each share, in the order of the trades. -/
def shares (ts : List Trade) : List LimitPrice :=
  ts.flatMap fun t => List.replicate t.quantity.toInt.toNat t.price

/-- A way to fill the order: of each resting order no more than it has, only at prices that the
taker accepts, and no more in all than it wants. -/
structure Feasible (b : Book) (o : Order) (amount : RestingOrder → ℕ) : Prop where
  enough : ∀ x ∈ resting b o.side.opposite, (amount x : ℤ) ≤ x.size
  accepted : ∀ x ∈ resting b o.side.opposite, amount x ≠ 0 → accepts o x = true
  total : (((resting b o.side.opposite).map amount).sum : ℤ) ≤ o.quantity.toInt

/-- The price of each share of such a way, best price first. -/
def sharesOf (amount : RestingOrder → ℕ) (queue : List RestingOrder) : List LimitPrice :=
  (chosen amount queue).map RestingOrder.price

variable {b b' : Book} {o : NewOrder}

/-! ## Shares of the trades -/

theorem shares_taken {taken : List (RestingOrder × ℤ)} (h : ∀ a ∈ taken, 0 < a.2 ∧ a.2 ≤ a.1.size) :
    shares (taken.map (tradeOf o.1)) = (units taken).map RestingOrder.price := by
  rw [shares, units, List.flatMap_map, List.map_flatMap]
  apply List.flatMap_congr
  intro a ha
  have hprice : (tradeOf o.1 a).price = a.1.price := by
    rw [tradeOf]
    cases o.1.side <;> rfl
  rw [tradeOf_quantity (h a ha).1 (h a ha).2, hprice, List.map_replicate]

theorem shares_trades (h : Invariant b) (o : NewOrder) :
    shares (Ladder.trades (resting b) o.1) =
      (units (sweepOf (resting b) o.1).1).map RestingOrder.price :=
  shares_taken fun a ha => (sweepOf_bounds h o.2 a ha).2

theorem accepts_sorted (h : Invariant b) (o : NewOrder) :
    (resting b o.1.side.opposite).Pairwise fun x y =>
      accepts o.1 y = true → accepts o.1 x = true :=
  (resting_sorted h o.1.side.opposite).imp fun hxy hy => NeverTraded.accepts_better hxy hy

/-- Shares of resting orders at prices that the taker accepts, at most as many as it wants. -/
theorem trades_dominate (h : Invariant b) (o : NewOrder) {others : List RestingOrder}
    (hothers : others.Sublist (offered RestingOrder.size
      ((resting b o.1.side.opposite).filter (accepts o.1))))
    (hfew : others.length ≤ o.1.remaining.toNat) :
    Dominates (NoWorse o.1.side) (shares (Ladder.trades (resting b) o.1))
      (others.map RestingOrder.price) := by
  rw [shares_trades h o]
  have hdom : Dominates (fun x y => x.price = y.price ∨ better o.1.side.opposite x.price y.price)
      (units (sweepOf (resting b) o.1).1) others :=
    sweep_dominates (fun _ => .inl rfl) (resting_sizes h _) (resting_sorted h _)
      (accepts_sorted h o) hothers hfew
  exact hdom.map fun _ _ hab => hab

/-! ## Other ways to fill the order -/

theorem feasible_dominated (h : Invariant b) (o : NewOrder) {amount : RestingOrder → ℕ}
    (hf : Feasible b o.1 amount) :
    Dominates (NoWorse o.1.side) (shares (Ladder.trades (resting b) o.1))
      (sharesOf amount (resting b o.1.side.opposite)) := by
  apply trades_dominate h o (chosen_sublist hf.enough hf.accepted)
  have htotal := hf.total
  rw [← PriceTimeAllocation.remaining_eq_quantity o.2] at htotal
  have hlen : (chosen amount (resting b o.1.side.opposite)).length =
      ((resting b o.1.side.opposite).map amount).sum := by
    simp only [chosen, List.length_flatMap, List.length_replicate]
  rw [hlen]
  omega

/-- What `addOrder` does is one of these ways. -/
theorem exists_feasible (h : Invariant b) (o : NewOrder) : ∃ amount, Feasible b o.1 amount ∧
    sharesOf amount (resting b o.1.side.opposite) = shares (Ladder.trades (resting b) o.1) := by
  have hsizes := resting_sizes h o.1.side.opposite
  have hnodup : (resting b o.1.side.opposite).Nodup := .of_map _ (h.resting_nodup _)
  obtain ⟨amount, henough, haccepted, hsame⟩ : ∃ amount : RestingOrder → ℕ,
      (∀ x ∈ resting b o.1.side.opposite, (amount x : ℤ) ≤ x.size) ∧
      (∀ x ∈ resting b o.1.side.opposite, amount x ≠ 0 → accepts o.1 x = true) ∧
        chosen amount (resting b o.1.side.opposite) = units (sweepOf (resting b) o.1).1 :=
    exists_chosen hnodup hsizes
  refine ⟨amount, ⟨henough, haccepted, ?_⟩, ?_⟩
  · have hlen := congrArg List.length hsame
    simp only [chosen, List.length_flatMap, List.length_replicate] at hlen
    have hfew : (units (sweepOf (resting b) o.1).1).length ≤ o.1.remaining.toNat :=
      length_units_sweep hsizes
    have hpos := o.2.remaining_pos
    rw [hlen, ← PriceTimeAllocation.remaining_eq_quantity o.2]
    omega
  · rw [shares_trades h o, sharesOf, hsame]

/-! ## After cancels -/

theorem cancelled_dominated (h : Invariant b) (h' : Invariant b') (o : NewOrder)
    {ids : List OrderId}
    (hcancel : ∀ s, resting b' s = (resting b s).filter fun x => x.order.id ∉ ids) :
    Dominates (NoWorse o.1.side) (shares (Ladder.trades (resting b) o.1))
      (shares (Ladder.trades (resting b') o.1)) := by
  rw [shares_trades h' o]
  have hsizes := resting_sizes h' o.1.side.opposite
  apply trades_dominate h o
  · rw [sweepOf, units_sweep hsizes, takeWhile_eq_filter (accepts_sorted h' o), hcancel]
    refine (List.take_sublist _ _).trans (offered_sublist ?_)
    exact List.Sublist.filter _ List.filter_sublist
  · exact length_units_sweep hsizes

/-- The trades of `addOrder` are one way to fill the order from the book, and share by share no
other way has a better price or more shares; nor has the same order after any cancels. -/
theorem best_execution (calls : List Call) (o : NewOrder)
    (hfree : (run emptyBook calls).ownedOrders o.1.id = none) :
    ∃ ts, Returns (run emptyBook calls) o ts ∧
      (∃ amount, Feasible (run emptyBook calls) o.1 amount ∧
        sharesOf amount (resting (run emptyBook calls) o.1.side.opposite) = shares ts) ∧
      (∀ amount, Feasible (run emptyBook calls) o.1 amount →
        Dominates (NoWorse o.1.side) (shares ts)
          (sharesOf amount (resting (run emptyBook calls) o.1.side.opposite))) ∧
      ∀ ids : List OrderId, ∃ ts', Returns (run emptyBook (calls ++ ids.map .cancel)) o ts' ∧
        Dominates (NoWorse o.1.side) (shares ts) (shares ts') := by
  have h := run_invariant calls
  have returns : ∀ {b : Book}, Invariant b → b.ownedOrders o.1.id = none →
      Returns b o (Ladder.trades (resting b) o.1) := by
    intro b hb hb'
    obtain ⟨b', hrun, _⟩ := addOrder_refines hb o.2 hb'
    exact ⟨b', hrun⟩
  refine ⟨_, returns h hfree, exists_feasible h o, fun amount => feasible_dominated h o, ?_⟩
  intro ids
  have h' := run_invariant (calls ++ ids.map .cancel)
  have hcancel : ∀ s, resting (run emptyBook (calls ++ ids.map .cancel)) s =
      (resting (run emptyBook calls) s).filter fun x => x.order.id ∉ ids := by
    intro s
    rw [run_append, (run_refines h (ids.map .cancel)).2, cancels_filter]
  have hfree' : (run emptyBook (calls ++ ids.map .cancel)).ownedOrders o.1.id = none := by
    rw [← not_holds_iff h', Bool.eq_false_iff, ne_eq, holds_iff]
    rintro ⟨s, x, hx, hid⟩
    rw [hcancel] at hx
    exact PriceTimeAllocation.not_resting_of_free h hfree (List.mem_of_mem_filter hx) hid
  exact ⟨_, returns h' hfree', cancelled_dominated h h' o hcancel⟩

/-- Against one ask, a market order gets no more shares after any cancels. -/
theorem best_execution_over_one_ask :
    let calls := [Call.add (some (.limit 1 1 .sell 5 five_pos .hundred))]
    ∃ ts, Returns (run emptyBook calls) (.market 2 2 .buy 3 three_pos) ts ∧
      ∀ ids : List OrderId, ∃ ts',
        Returns (run emptyBook (calls ++ ids.map .cancel)) (.market 2 2 .buy 3 three_pos) ts' ∧
          (shares ts').length ≤ (shares ts).length := by
  intro calls
  obtain ⟨ts, hts, _, _, hcancel⟩ := best_execution calls (.market 2 2 .buy 3 three_pos) (by decide)
  refine ⟨ts, hts, fun ids => ?_⟩
  obtain ⟨ts', hts', hdom⟩ := hcancel ids
  exact ⟨ts', hts', hdom.length_le⟩

end BestExecution
