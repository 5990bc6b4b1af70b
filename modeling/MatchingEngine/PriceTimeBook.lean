import MatchingEngine.OrderBook
import MatchingEngine.Allocation

/-! # The price-time book

What the book is for, without its maps and indexes: a queue for each side, best price
first and first come first within a price. -/
namespace PriceTimeBook

open EngineTypes
open Orders
open OrderedMap
open OrderBook
open Allocation

/-- An order with the price of the level it rests on. -/
structure RestingOrder where
  price : LimitPrice
  order : Order
  deriving DecidableEq

namespace RestingOrder

def size (x : RestingOrder) : ℤ := x.order.remaining

/-- What a fill of `t` shares leaves, when it leaves some. -/
def fill (x : RestingOrder) (t : ℤ) : RestingOrder :=
  ⟨x.price, (x.order.fill (Int32.ofInt t)).setStatus .partiallyFilled⟩

@[simp] theorem fill_price (x : RestingOrder) (t : ℤ) : (x.fill t).price = x.price := rfl
@[simp] theorem fill_id (x : RestingOrder) (t : ℤ) : (x.fill t).order.id = x.order.id := rfl

theorem size_fill {x : RestingOrder} {t : ℤ} (h0 : 0 ≤ t) (h : t ≤ x.size) :
    (x.fill t).size = x.size - t := by
  have ht : (Int32.ofInt t).toInt = t := toInt_ofInt_of_le h0 h
  have hr := Order.remaining_fill (o := x.order) (t := Int32.ofInt t) (by omega) (by rwa [ht])
  rw [ht] at hr
  exact hr

end RestingOrder

abbrev Ladder := Side → List RestingOrder

/-- A market order takes any price, a limit order none worse than its own. -/
def accepts (taker : Order) (x : RestingOrder) : Bool :=
  match taker.price with
  | none => true
  | some limit =>
    match taker.side with
    | .buy => x.price ≤ limit
    | .sell => limit ≤ x.price

/-- The resting orders that a taker trades with and its fills, and the queue they leave. -/
def sweepOf (L : Ladder) (taker : Order) : List (RestingOrder × ℤ) × List RestingOrder :=
  sweep RestingOrder.size (accepts taker) RestingOrder.fill taker.remaining (L taker.side.opposite)

def tradeOf (taker : Order) (x : RestingOrder × ℤ) : Trade :=
  match taker.side with
  | .buy => ⟨taker.id, x.1.order.id, x.1.price, Int32.ofInt x.2⟩
  | .sell => ⟨x.1.order.id, taker.id, x.1.price, Int32.ofInt x.2⟩

def Ladder.trades (L : Ladder) (taker : Order) : List Trade :=
  (sweepOf L taker).1.map (tradeOf taker)

/-- The shares of the taker that found no trade. -/
def leftover (L : Ladder) (taker : Order) : ℤ :=
  taker.remaining - ((sweepOf L taker).1.map Prod.snd).sum

/-- A limit order that rests with `left` shares. -/
def resident (taker : Order) (left : ℤ) : Order :=
  { taker with
    remainingQty := Int32.ofInt left
    status := if left = taker.quantity.toInt then .opened else .partiallyFilled }

/-- What rests of a taker: nothing of a market order or of a filled one. -/
def rested (taker : Order) (left : ℤ) : Option RestingOrder :=
  match taker.price with
  | none => none
  | some price => if left = 0 then none else some ⟨price, resident taker left⟩

/-- A partial fill changes no price. -/
theorem swept_price {L : Ladder} {o : Order} {y : RestingOrder} (hy : y ∈ (sweepOf L o).2) :
    ∃ x ∈ L o.side.opposite, x.price = y.price := by
  have hsuf : (sweepOf L o).2.map RestingOrder.price <:+
      (L o.side.opposite).map RestingOrder.price :=
    sweep_suffix RestingOrder.fill_price _ _
  exact List.mem_map.mp (hsuf.subset (List.mem_map.mpr ⟨y, hy, rfl⟩))

theorem rested_eq_some {o : Order} {left : ℤ} {x : RestingOrder} (hx : rested o left = some x) :
    x.order = resident o left ∧ o.price = some x.price ∧ left ≠ 0 := by
  rw [rested] at hx
  cases hp : o.price with
  | none => simp [hp] at hx
  | some price =>
    simp only [hp] at hx
    split at hx
    · cases hx
    · rename_i h0
      cases hx
      exact ⟨rfl, rfl, h0⟩

theorem rested_id {o : Order} {left : ℤ} {x : RestingOrder} (hx : rested o left = some x) :
    x.order.id = o.id := by
  rw [(rested_eq_some hx).1]
  rfl

/-- Behind every order of the same or a better price. -/
def place (s : Side) (x : Option RestingOrder) (queue : List RestingOrder) : List RestingOrder :=
  match x with
  | none => queue
  | some x => queue.orderedInsert (fun a c => better s a.price c.price) x

theorem mem_place {s : Side} {r : Option RestingOrder} {queue : List RestingOrder}
    {y : RestingOrder} : y ∈ place s r queue ↔ r = some y ∨ y ∈ queue := by
  cases r with
  | none => simp [place]
  | some x => simp [place, eq_comm]

def Ladder.add (L : Ladder) (taker : Order) : Ladder := fun s =>
  if s = taker.side then place s (rested taker (leftover L taker)) (L s)
  else (sweepOf L taker).2

theorem opposite_ne (s : Side) : s.opposite ≠ s := by cases s <;> decide

theorem eq_opposite_of_ne {s s' : Side} (h : s' ≠ s) : s' = s.opposite := by
  cases s <;> cases s' <;> first | rfl | exact absurd rfl h

theorem add_own (L : Ladder) (taker : Order) : Ladder.add L taker taker.side =
    place taker.side (rested taker (leftover L taker)) (L taker.side) := if_pos rfl

theorem add_opposite (L : Ladder) (taker : Order) :
    Ladder.add L taker taker.side.opposite = (sweepOf L taker).2 := if_neg (opposite_ne taker.side)

def Ladder.cancel (L : Ladder) (id : OrderId) : Ladder := fun s =>
  (L s).filter fun x => x.order.id ≠ id

end PriceTimeBook
