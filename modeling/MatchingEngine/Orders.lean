import MatchingEngine.EngineTypes

/-! # Orders, trades and `OrderFactory::createOrder`

A factory order is unmodified until the book receives it, so `NewOrder` is a subtype. -/
namespace Orders

open EngineTypes

/-- `price` is `some` in a `LimitOrder` and `none` in a `MarketOrder`. -/
structure Order where
  id : OrderId
  traderId : TraderId
  side : Side
  quantity : Int32
  remainingQty : Int32
  status : OrderStatus
  price : Option LimitPrice
  deriving DecidableEq

structure Trade where
  buyOrderId : OrderId
  sellOrderId : OrderId
  price : LimitPrice
  quantity : Int32
  deriving DecidableEq

def stdMin (a b : Int32) : Int32 := if b < a then b else a
def stdMax (a b : Int32) : Int32 := if a < b then b else a

theorem toInt_stdMin (a b : Int32) : (stdMin a b).toInt = min a.toInt b.toInt := by
  rw [stdMin]
  split <;> rename_i h <;> rw [Int32.lt_iff_toInt_lt] at h <;> omega

/-- A count between 0 and an `int` is an `int`. -/
theorem toInt_ofInt_of_le {left : ℤ} {q : Int32} (h0 : 0 ≤ left) (h : left ≤ q.toInt) :
    (Int32.ofInt left).toInt = left := by
  have hq := q.toInt_lt
  exact Int32.toInt_ofInt_of_le (by omega) (by omega)

/-- `int` subtraction. Overflow is undefined, not a wrap. -/
def subInt (a b : Int32) : Except Failure Int32 :=
  if -2 ^ 31 ≤ a.toInt - b.toInt ∧ a.toInt - b.toInt < 2 ^ 31 then .ok (a - b)
  else .error (.undefined .signedOverflow)

namespace Order

def getOrderKind (o : Order) : OrderKind :=
  match o.price with
  | none => .market
  | some _ => .limit

def getPrice (o : Order) : Except Failure LimitPrice :=
  match o.price with
  | none => .error (.logicError "MarketOrder has no fixed price - check getOrderKind() first")
  | some p => .ok p

def reduceQuantity (o : Order) (filledQty : Int32) : Except Failure Order :=
  match subInt o.remainingQty filledQty with
  | .error f => .error f
  | .ok left => .ok { o with remainingQty := stdMax 0 left }

def setStatus (o : Order) (status : OrderStatus) : Order := { o with status := status }

/-- Shares still to be filled. -/
def remaining (o : Order) : ℤ := o.remainingQty.toInt

/-- What a fill of `t` shares leaves of an order. -/
def fill (o : Order) (t : Int32) : Order := { o with remainingQty := o.remainingQty - t }

@[simp] theorem fill_id (o : Order) (t) : (o.fill t).id = o.id := rfl
@[simp] theorem fill_side (o : Order) (t) : (o.fill t).side = o.side := rfl
@[simp] theorem fill_price (o : Order) (t) : (o.fill t).price = o.price := rfl
@[simp] theorem fill_quantity (o : Order) (t) : (o.fill t).quantity = o.quantity := rfl
@[simp] theorem fill_status (o : Order) (t) : (o.fill t).status = o.status := rfl
@[simp] theorem setStatus_id (o : Order) (s) : (o.setStatus s).id = o.id := rfl
@[simp] theorem setStatus_side (o : Order) (s) : (o.setStatus s).side = o.side := rfl
@[simp] theorem setStatus_price (o : Order) (s) : (o.setStatus s).price = o.price := rfl
@[simp] theorem setStatus_quantity (o : Order) (s) : (o.setStatus s).quantity = o.quantity := rfl
@[simp] theorem setStatus_status (o : Order) (s) : (o.setStatus s).status = s := rfl
@[simp] theorem setStatus_remainingQty (o : Order) (s) :
    (o.setStatus s).remainingQty = o.remainingQty := rfl
@[simp] theorem setStatus_remaining (o : Order) (s) :
    (o.setStatus s).remaining = o.remaining := rfl

theorem remaining_fill {o : Order} {t : Int32} (h0 : 0 ≤ t.toInt) (h : t.toInt ≤ o.remaining) :
    (o.fill t).remaining = o.remaining - t.toInt :=
  Int32.toInt_sub_of_le _ _ (Int32.le_iff_toInt_le.mpr (by simpa using h0))
    (Int32.le_iff_toInt_le.mpr h)

/-- On a fill within what remains, neither the clamp nor the overflow is met. -/
theorem reduceQuantity_fill {o : Order} {t : Int32} (h0 : 0 ≤ t.toInt)
    (h : t.toInt ≤ o.remaining) : o.reduceQuantity t = .ok (o.fill t) := by
  have hr : (o.remainingQty - t).toInt = o.remainingQty.toInt - t.toInt := remaining_fill h0 h
  have hlt := o.remainingQty.toInt_lt
  rw [remaining] at h
  have hs : subInt o.remainingQty t = .ok (o.remainingQty - t) := if_pos ⟨by omega, by omega⟩
  have hm : stdMax 0 (o.remainingQty - t) = o.remainingQty - t := by
    rw [stdMax]
    split
    · rfl
    · rename_i hn
      rw [Int32.lt_iff_toInt_lt, Int32.toInt_zero] at hn
      apply Int32.toInt_inj.mp
      rw [Int32.toInt_zero]
      omega
  simp only [reduceQuantity, hs, hm, fill]

/-- An order as its constructor leaves it. -/
def Valid (o : Order) : Prop :=
  0 < o.quantity ∧ o.remainingQty = o.quantity ∧ o.status = .new

instance (o : Order) : Decidable o.Valid := inferInstanceAs (Decidable (_ ∧ _ ∧ _))

theorem Valid.remaining_pos {o : Order} (h : o.Valid) : 0 < o.remaining := by
  have hq := Int32.lt_iff_toInt_lt.mp h.1
  rw [Int32.toInt_zero] at hq
  simpa [remaining, h.2.1] using hq

end Order

/-- `Order::Order`, with the fields that both subclasses share. -/
def orderBase (id : OrderId) (traderId : TraderId) (side : Side) (quantity : Int32) :
    Except Failure Order :=
  if quantity ≤ 0 then .error (.invalidArgument "Order quantity must be positive")
  else .ok ⟨id, traderId, side, quantity, quantity, .new, none⟩

def marketOrder (id : OrderId) (traderId : TraderId) (side : Side) (quantity : Int32) :
    Except Failure Order :=
  orderBase id traderId side quantity

def limitOrder (id : OrderId) (traderId : TraderId) (side : Side) (quantity : Int32)
    (price : Double) : Except Failure Order :=
  match orderBase id traderId side quantity with
  | .error f => .error f
  | .ok o =>
    if h : price.isFinite = true ∧ Double.le price Double.zero = false then
      .ok { o with price := some ⟨price, h.1, h.2⟩ }
    else .error (.invalidArgument "Limit order price must be finite and positive")

def createOrder (kind : OrderKind) (id : OrderId) (traderId : TraderId) (side : Side)
    (quantity : Int32) (price : Double) : Except Failure Order :=
  match kind with
  | .market => marketOrder id traderId side quantity
  | .limit => limitOrder id traderId side quantity price

theorem createOrder_valid {kind id traderId side quantity price o}
    (h : createOrder kind id traderId side quantity price = .ok o) : o.Valid := by
  have base : ∀ {b}, orderBase id traderId side quantity = .ok b →
      0 < quantity ∧ b = ⟨id, traderId, side, quantity, quantity, .new, none⟩ := by
    intro b hb
    rw [orderBase] at hb
    split at hb
    · cases hb
    · rename_i hq
      exact ⟨Int32.not_le.mp hq, (Except.ok.inj hb).symm⟩
  cases kind with
  | market =>
    obtain ⟨hq, rfl⟩ := base h
    exact ⟨hq, rfl, rfl⟩
  | limit =>
    simp only [createOrder, limitOrder] at h
    cases hb : orderBase id traderId side quantity with
    | error f => simp only [hb, reduceCtorEq] at h
    | ok b =>
      obtain ⟨hq, rfl⟩ := base hb
      simp only [hb] at h
      split at h
      · cases h; exact ⟨hq, rfl, rfl⟩
      · cases h

/-- The price argument that rebuilds an order: ignored by the factory for a market order. -/
def Order.priceArgument (o : Order) : Double :=
  match o.price with
  | none => Double.zero
  | some p => p.val

/-- A factory order is rebuilt exactly from its own fields. -/
theorem createOrder_fields {o : Order} (h : o.Valid) :
    createOrder o.getOrderKind o.id o.traderId o.side o.quantity o.priceArgument = .ok o := by
  obtain ⟨id, traderId, side, quantity, remainingQty, status, price⟩ := o
  obtain ⟨hq, hr, hs⟩ := h
  cases hr
  cases hs
  have hb : orderBase id traderId side quantity =
      .ok ⟨id, traderId, side, quantity, quantity, .new, none⟩ := if_neg (Int32.not_le.mpr hq)
  cases price with
  | none => exact hb
  | some p =>
    simp only [Order.getOrderKind, createOrder, limitOrder, hb, Order.priceArgument]
    exact dif_pos ⟨p.finite, p.positive⟩

/-- The orders that the factory hands out are the valid ones. -/
theorem valid_iff_created (o : Order) :
    o.Valid ↔ ∃ kind id traderId side quantity price,
      createOrder kind id traderId side quantity price = .ok o :=
  ⟨fun h => ⟨_, _, _, _, _, _, createOrder_fields h⟩, fun ⟨_, _, _, _, _, _, h⟩ =>
    createOrder_valid h⟩

abbrev NewOrder := {o : Order // o.Valid}

def NewOrder.market (id : OrderId) (traderId : TraderId) (side : Side) (quantity : Int32)
    (h : 0 < quantity) : NewOrder :=
  ⟨⟨id, traderId, side, quantity, quantity, .new, none⟩, h, rfl, rfl⟩

def NewOrder.limit (id : OrderId) (traderId : TraderId) (side : Side) (quantity : Int32)
    (h : 0 < quantity) (price : LimitPrice) : NewOrder :=
  ⟨⟨id, traderId, side, quantity, quantity, .new, some price⟩, h, rfl, rfl⟩

theorem three_pos : (0 : Int32) < 3 := by decide

theorem five_pos : (0 : Int32) < 5 := by decide

end Orders
