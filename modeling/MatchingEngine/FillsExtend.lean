import Mathlib.Data.List.Pairwise
import MatchingEngine.SweepComparison
import MatchingEngine.NeverTraded

/-! # A more aggressive order only extends the fills

Orders that differ in their limit price or in their quantity, submitted to one book. The
loop stops for different reasons, and each list of trades is a first part of the next. -/
namespace FillsExtend

open EngineTypes
open Orders
open OrderedMap
open OrderBook
open PriceTimeBook
open BookInvariant
open BookRefinement
open BookRuns
open ShareConservation

/-- A factory order: a market order without a price. -/
def incoming (id : OrderId) (traderId : TraderId) (side : Side) (price : Option LimitPrice)
    (quantity : Int32) (h : 0 < quantity) : NewOrder :=
  ⟨⟨id, traderId, side, quantity, quantity, .new, price⟩, h, rfl, rfl⟩

def Returns (b : Book) (o : NewOrder) (ts : List Trade) : Prop :=
  ∃ b', (addOrder (some o.1)).run b = .ok ts b'

/-- The limit `p'` is at least as good for the other side as `p`. -/
def AsAggressive : Side → LimitPrice → LimitPrice → Prop
  | .buy, p, p' => p ≤ p'
  | .sell, p, p' => p' ≤ p

/-- The price of the last level of a side. -/
def worstLevel? (b : Book) (s : Side) : Option LimitPrice :=
  (b.levels s).entries.getLast?.map Prod.fst

/-- The limit takes every level of the opposite side. -/
def ReachesWorst (b : Book) (side : Side) (limit : LimitPrice) : Prop :=
  ∀ w, worstLevel? b side.opposite = some w → (branch side).priceOk limit w = true

def shortened (t : Trade) (q : ℤ) : Trade := { t with quantity := Int32.ofInt q }

/-- The trades up to a total quantity, the last one shortened where it does not fit. -/
def cutAt (q : ℤ) (ts : List Trade) : List Trade :=
  Allocation.cut (fun t => t.quantity.toInt) shortened q ts

/-- All of a trade but its quantity. -/
def parties (t : Trade) : OrderId × OrderId × LimitPrice := (t.buyOrderId, t.sellOrderId, t.price)

variable {b : Book} {id : OrderId} {traderId : TraderId} {side : Side} {q : Int32} {hq : 0 < q}

theorem returns_trades (h : Invariant b) (hfree : b.ownedOrders id = none)
    (price : Option LimitPrice) : Returns b (incoming id traderId side price q hq)
      (Ladder.trades (resting b) (incoming id traderId side price q hq).1) := by
  obtain ⟨b', hrun, _⟩ := addOrder_refines h (incoming id traderId side price q hq).2 hfree
  exact ⟨b', hrun⟩

/-! ## The price -/

theorem accepts_aggressive {p p' : LimitPrice} (hp : AsAggressive side p p') (x : RestingOrder)
    (hx : accepts (incoming id traderId side (some p) q hq).1 x = true) :
    accepts (incoming id traderId side (some p') q hq).1 x = true := by
  cases side with
  | buy =>
    have hle : x.price ≤ p := of_decide_eq_true hx
    exact decide_eq_true (hle.trans hp)
  | sell =>
    have hle : p ≤ x.price := of_decide_eq_true hx
    exact decide_eq_true (hp.trans hle)

theorem trades_prefix {price price' : Option LimitPrice}
    (h : ∀ x ∈ resting b side.opposite,
      accepts (incoming id traderId side price q hq).1 x = true →
      accepts (incoming id traderId side price' q hq).1 x = true) :
    Ladder.trades (resting b) (incoming id traderId side price q hq).1 <+:
      Ladder.trades (resting b) (incoming id traderId side price' q hq).1 :=
  (Allocation.sweep_prefix h).map (tradeOf (incoming id traderId side price q hq).1)

/-- No level is worse than the last one. -/
theorem worst_level (h : Invariant b) {s : Side} {x : RestingOrder} (hx : x ∈ resting b s) :
    ∃ w, worstLevel? b s = some w ∧ (x.price = w ∨ better s x.price w) := by
  obtain ⟨l, hl, _⟩ := mem_flatten.mp (h.mem_resting.mp hx).1
  have hne : (b.levels s).entries ≠ [] := List.ne_nil_of_mem hl
  refine ⟨_, by rw [worstLevel?, List.getLast?_eq_some_getLast hne, Option.map_some], ?_⟩
  have hsorted : (b.levels s).entries.Pairwise fun e f => e.1 = f.1 ∨ better s e.1 f.1 :=
    (b.levels s).sorted.imp Or.inr
  exact hsorted.rel_getLast_of_rel_getLast_getLast hl (Or.inl rfl)

theorem accepts_of_reachesWorst (h : Invariant b) {limit : LimitPrice}
    (hw : ReachesWorst b side limit) : ∀ x ∈ resting b side.opposite,
      accepts (incoming id traderId side (some limit) q hq).1 x = true := by
  intro x hx
  obtain ⟨w, hlast, hle⟩ := worst_level h hx
  have hok : accepts (incoming id traderId side (some limit) q hq).1 ⟨w, x.order⟩ = true := by
    have hpriceOk := hw w hlast
    cases side <;> exact hpriceOk
  exact NeverTraded.accepts_better hle hok

theorem trades_eq_market (h : Invariant b) {limit : LimitPrice}
    (hw : ReachesWorst b side limit) :
    Ladder.trades (resting b) (incoming id traderId side (some limit) q hq).1 =
      Ladder.trades (resting b) (incoming id traderId side none q hq).1 := by
  have htaken : (sweepOf (resting b) (incoming id traderId side (some limit) q hq).1).1 =
      (sweepOf (resting b) (incoming id traderId side none q hq).1).1 :=
    Allocation.sweep_taken_congr (accepts_of_reachesWorst h hw)
  exact congrArg (List.map (tradeOf (incoming id traderId side none q hq).1)) htaken

/-! ## The quantity -/

theorem trades_pos (h : Invariant b) (o : NewOrder) :
    ∀ t ∈ Ladder.trades (resting b) o.1, 0 < t.quantity.toInt := by
  intro t ht
  obtain ⟨a, ha, rfl⟩ := List.mem_map.mp ht
  obtain ⟨_, h0, hle⟩ := sweepOf_bounds h o.2 a ha
  rw [tradeOf_quantity h0 hle]
  exact h0

theorem toInt_shortened (t : Trade) {q : ℤ} (h0 : 0 < q) (h : q < t.quantity.toInt) :
    (shortened t q).quantity.toInt = q := toInt_ofInt_of_le h0.le h.le

@[simp] theorem parties_shortened (t : Trade) (q : ℤ) : parties (shortened t q) = parties t := rfl

/-- The trades of the smaller order are those of the larger one, cut off at its quantity. -/
theorem trades_cut (h : Invariant b) (price : Option LimitPrice) {q' : Int32} {hq' : 0 < q'}
    (hle : q ≤ q') : Ladder.trades (resting b) (incoming id traderId side price q hq).1 =
      cutAt q.toInt (Ladder.trades (resting b) (incoming id traderId side price q' hq').1) := by
  have hbounds := sweepOf_bounds h (incoming id traderId side price q' hq').2
  have hcut : (sweepOf (resting b) (incoming id traderId side price q hq).1).1 =
      Allocation.cut Prod.snd (fun x t => (x.1, t)) q.toInt
        (sweepOf (resting b) (incoming id traderId side price q' hq').1).1 :=
    Allocation.sweep_cut (Int32.le_iff_toInt_le.mp hle) _
  have hmap : cutAt q.toInt (Ladder.trades (resting b) (incoming id traderId side price q' hq').1) =
      (Allocation.cut Prod.snd (fun x t => (x.1, t)) q.toInt
        (sweepOf (resting b) (incoming id traderId side price q' hq').1).1).map
          (tradeOf (incoming id traderId side price q' hq').1) := by
    apply Allocation.cut_map
    · intro a ha
      exact tradeOf_quantity (hbounds a ha).2.1 (hbounds a ha).2.2
    · intro a _ t
      cases side <;> rfl
  rw [hmap]
  exact congrArg (List.map (tradeOf (incoming id traderId side price q hq).1)) hcut

/-- What a cut at a total keeps: all of it but for the last trade, whose quantity alone may be
shorter, and as much as there is up to the total. -/
structure CutOff (total : ℤ) (ts ts' : List Trade) : Prop where
  cut : ts = cutAt total ts'
  traded : volume ts = total
  kept : ts.dropLast <+: ts'
  named : ts.map parties <+: ts'.map parties

theorem cutOff_trades (h : Invariant b) (price : Option LimitPrice) {q' : Int32} {hq' : 0 < q'}
    (hle : q ≤ q') :
    CutOff (min q.toInt (volume (Ladder.trades (resting b)
        (incoming id traderId side price q' hq').1)))
      (Ladder.trades (resting b) (incoming id traderId side price q hq).1)
      (Ladder.trades (resting b) (incoming id traderId side price q' hq').1) := by
  have hpos := trades_pos h (incoming id traderId side price q' hq')
  have hq0 : 0 ≤ q.toInt := by
    have hlt := Int32.lt_iff_toInt_lt.mp hq
    rw [Int32.toInt_zero] at hlt
    exact hlt.le
  have hcut : Ladder.trades (resting b) (incoming id traderId side price q hq).1 =
      cutAt q.toInt (Ladder.trades (resting b) (incoming id traderId side price q' hq').1) :=
    trades_cut h price hle
  rw [hcut]
  constructor
  · exact (Allocation.cut_min hpos).symm
  · exact Allocation.sum_cut hpos hq0 fun t _ _ => toInt_shortened t
  · exact Allocation.dropLast_cut_prefix _ _
  · exact Allocation.map_cut_prefix parties_shortened _ _

/-- A better limit extends the trades, up to those of a market order. A smaller quantity cuts
them off. -/
theorem fills_extend (calls : List Call) (id : OrderId) (traderId : TraderId) (side : Side)
    (q : Int32) (hq : 0 < q) (hfree : (run emptyBook calls).ownedOrders id = none) :
    (∀ p p', AsAggressive side p p' → ∃ ts ts' market,
      Returns (run emptyBook calls) (incoming id traderId side (some p) q hq) ts ∧
      Returns (run emptyBook calls) (incoming id traderId side (some p') q hq) ts' ∧
      Returns (run emptyBook calls) (incoming id traderId side none q hq) market ∧
      ts <+: ts' ∧ ts' <+: market ∧
      (ReachesWorst (run emptyBook calls) side p' → ts' = market)) ∧
    ∀ price q' (hq' : 0 < q'), q ≤ q' → ∃ ts ts',
      Returns (run emptyBook calls) (incoming id traderId side price q hq) ts ∧
      Returns (run emptyBook calls) (incoming id traderId side price q' hq') ts' ∧
      CutOff (min q.toInt (volume ts')) ts ts' := by
  have h := run_invariant calls
  constructor
  · intro p p' hp
    refine ⟨_, _, _, returns_trades h hfree _, returns_trades h hfree _,
      returns_trades h hfree _, ?_, ?_, ?_⟩
    · exact trades_prefix fun x _ => accepts_aggressive hp x
    · exact trades_prefix fun _ _ _ => rfl
    · exact trades_eq_market h
  · intro price q' hq' hle
    exact ⟨_, _, returns_trades h hfree _, returns_trades h hfree _, cutOff_trades h price hle⟩

/-- Against one ask, a buy under a fresh id. -/
theorem fills_extend_over_one_ask :
    let calls := [Call.add (some (.limit 1 1 .sell 5 five_pos .hundred))]
    (∀ p p', AsAggressive .buy p p' → ∃ ts ts' market,
      Returns (run emptyBook calls) (incoming 2 2 .buy (some p) 3 three_pos) ts ∧
      Returns (run emptyBook calls) (incoming 2 2 .buy (some p') 3 three_pos) ts' ∧
      Returns (run emptyBook calls) (incoming 2 2 .buy none 3 three_pos) market ∧
      ts <+: ts' ∧ ts' <+: market ∧
      (ReachesWorst (run emptyBook calls) .buy p' → ts' = market)) ∧
    ∀ price q' (hq' : 0 < q'), 3 ≤ q' → ∃ ts ts',
      Returns (run emptyBook calls) (incoming 2 2 .buy price 3 three_pos) ts ∧
      Returns (run emptyBook calls) (incoming 2 2 .buy price q' hq') ts' ∧
      CutOff (min (3 : Int32).toInt (volume ts')) ts ts' :=
  fills_extend [Call.add (some _)] 2 2 .buy 3 three_pos (by decide)

end FillsExtend
