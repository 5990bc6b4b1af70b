import MatchingEngine.Orders
import MatchingEngine.OrderedMap

/-! # The order book

An `Order*` is named by the id under which `ownedOrders` holds the object, and a list
iterator by the element of its node. Reading through a pointer or an iterator that
names nothing ends the call with `Failure.undefined`. -/
namespace OrderBook

open EngineTypes
open Orders
open OrderedMap

/-- The comparator of a side's level map: `std::greater` for bids, `std::less` for asks. -/
def better : Side → LimitPrice → LimitPrice → Prop
  | .buy => fun p q => p > q
  | .sell => fun p q => p < q

instance (s : Side) : DecidableRel (better s) := fun p q =>
  match s with
  | .buy => inferInstanceAs (Decidable (p > q))
  | .sell => inferInstanceAs (Decidable (p < q))

instance (s : Side) : IsStrictTotalOrder LimitPrice (better s) :=
  match s with
  | .buy => inferInstanceAs (IsStrictTotalOrder LimitPrice (· > ·))
  | .sell => inferInstanceAs (IsStrictTotalOrder LimitPrice (· < ·))

abbrev Levels (s : Side) := OMap LimitPrice (List OrderId) (better s)

structure OrderLocation where
  side : Side
  price : LimitPrice
  iterator : OrderId
  deriving DecidableEq

structure Book where
  bids : Levels .buy
  asks : Levels .sell
  ownedOrders : OrderId → Option Order
  orderLocation : OrderId → Option OrderLocation

def emptyBook : Book := ⟨.empty, .empty, fun _ => none, fun _ => none⟩

def Book.levels (b : Book) : (s : Side) → Levels s
  | .buy => b.bids
  | .sell => b.asks

def Book.setLevels (b : Book) (s : Side) (m : Levels s) : Book :=
  match s with
  | .buy => { b with bids := m }
  | .sell => { b with asks := m }

abbrev BookM := EStateM Failure Book

/-! ## Pointers and indexes -/

def deref (p : OrderId) : BookM Order := do
  match (← get).ownedOrders p with
  | some o => return o
  | none => throw (.undefined .danglingOrder)

def putOrder (p : OrderId) (o : Order) : BookM Unit :=
  modify fun b => { b with ownedOrders := Function.update b.ownedOrders p (some o) }

def eraseOwned (id : OrderId) : BookM Unit :=
  modify fun b => { b with ownedOrders := Function.update b.ownedOrders id none }

def setLocation (id : OrderId) (loc : Option OrderLocation) : BookM Unit :=
  modify fun b => { b with orderLocation := Function.update b.orderLocation id loc }

def setStatus (p : OrderId) (status : OrderStatus) : BookM Unit := do
  putOrder p ((← deref p).setStatus status)

def reduceQuantity (p : OrderId) (filledQty : Int32) : BookM Unit := do
  match (← deref p).reduceQuantity filledQty with
  | .error f => throw f
  | .ok o => putOrder p o

def front : List OrderId → BookM OrderId
  | [] => throw (.undefined .emptyFront)
  | id :: _ => return id

/-- `level.pop_front()`, and the level goes when it is empty. -/
def popFront (s : Side) (price : LimitPrice) : BookM Unit := do
  match ((← get).levels s).find price with
  | none => throw (.undefined .missingLevel)
  | some [] => throw (.undefined .emptyFront)
  | some (_ :: l) => modify fun b => b.setLevels s ((b.levels s).store price l)

/-- `level.erase(iterator)`, and the level goes when it is empty. -/
def eraseAt (s : Side) (price : LimitPrice) (iterator : OrderId) : BookM Unit := do
  match ((← get).levels s).find price with
  | none => throw (.undefined .missingLevel)
  | some l =>
    if iterator ∈ l then
      modify fun b => b.setLevels s ((b.levels s).store price (l.erase iterator))
    else throw (.undefined .danglingIterator)

/-! ## Matching -/

/-- What differs between the two branches of `matchIncoming`. -/
structure Branch where
  opposite : Side
  priceOk : LimitPrice → LimitPrice → Bool
  trade : OrderId → OrderId → LimitPrice → Int32 → Trade

def buyBranch : Branch where
  opposite := .sell
  priceOk := fun price bestAskPrice => price ≥ bestAskPrice
  trade := fun incoming resting price quantity => ⟨incoming, resting, price, quantity⟩

def sellBranch : Branch where
  opposite := .buy
  priceOk := fun price bestBidPrice => price ≤ bestBidPrice
  trade := fun incoming resting price quantity => ⟨resting, incoming, price, quantity⟩

def branch : Side → Branch
  | .buy => buyBranch
  | .sell => sellBranch

def acceptsPrice (br : Branch) (incoming : Order) (bestPrice : LimitPrice) : BookM Bool :=
  match incoming.getOrderKind with
  | .market => return true
  | .limit =>
    match incoming.getPrice with
    | .error f => throw f
    | .ok price => return br.priceOk price bestPrice

def tradeQty (incoming resting : Order) : Int32 :=
  stdMin incoming.remainingQty resting.remainingQty

def settleMaker (opposite : Side) (bestPrice : LimitPrice) (resting : OrderId) : BookM Unit := do
  let maker ← deref resting
  if maker.remainingQty = 0 then
    setStatus resting .filled
    popFront opposite bestPrice
    setLocation maker.id none
    eraseOwned maker.id
  else
    setStatus resting .partiallyFilled

def tradeWith (br : Branch) (incoming : OrderId) (bestPrice : LimitPrice)
    (resting : OrderId) : BookM Trade := do
  let inc ← deref incoming
  let maker ← deref resting
  reduceQuantity incoming (tradeQty inc maker)
  reduceQuantity resting (tradeQty inc maker)
  settleMaker br.opposite bestPrice resting
  return br.trade inc.id maker.id bestPrice (tradeQty inc maker)

/-- One pass of the loop; `none` when the loop is left. -/
def matchOnce (br : Branch) (incoming : OrderId) : BookM (Option Trade) := do
  let inc ← deref incoming
  if inc.remainingQty ≤ 0 then return none
  match ((← get).levels br.opposite).begin? with
  | none => return none
  | some (bestPrice, level) =>
    if ← acceptsPrice br inc bestPrice then
      return some (← tradeWith br incoming bestPrice (← front level))
    else return none

def matchLoop (br : Branch) (incoming : OrderId) : ℕ → BookM (List Trade)
  | 0 => throw (.undefined .endlessLoop)
  | fuel + 1 => do
    match ← matchOnce br incoming with
    | none => return []
    | some t => return t :: (← matchLoop br incoming fuel)

/-- One pass per order on the side, and the pass that leaves the loop. -/
def passes (b : Book) (s : Side) : ℕ := (b.levels s).flat.length + 1

def matchIncoming (incoming : OrderId) : BookM (List Trade) := do
  let br := branch (← deref incoming).side
  matchLoop br incoming (passes (← get) br.opposite)

/-! ## Public operations -/

def restInBook (incoming : OrderId) : BookM Unit := do
  let o ← deref incoming
  match o.getPrice with
  | .error f => throw f
  | .ok price =>
    modify fun b => b.setLevels o.side ((b.levels o.side).push price incoming)
    setLocation o.id (some ⟨o.side, price, incoming⟩)

def addOrder (order : Option Order) : BookM (List Trade) := do
  match order with
  | none => throw (.invalidArgument "Cannot add a null order")
  | some o =>
    if ((← get).ownedOrders o.id).isSome then
      throw (.invalidArgument "Order ID is already active")
    putOrder o.id o
    let trades ← matchIncoming o.id
    let raw ← deref o.id
    if raw.remainingQty = 0 then
      setStatus o.id .filled
      eraseOwned o.id
    else
      match raw.getOrderKind with
      | .limit =>
        setStatus o.id (if raw.remainingQty = raw.quantity then .opened else .partiallyFilled)
        restInBook o.id
      | .market =>
        setStatus o.id .cancelled
        eraseOwned o.id
    return trades

def cancelOrder (id : OrderId) : BookM Bool := do
  match (← get).orderLocation id with
  | none => return false
  | some loc =>
    eraseAt loc.side loc.price loc.iterator
    setLocation id none
    if ((← get).ownedOrders id).isSome then
      setStatus id .cancelled
      eraseOwned id
    return true

def getBestBid (b : Book) : Option LimitPrice := b.bids.begin?.map Prod.fst
def getBestAsk (b : Book) : Option LimitPrice := b.asks.begin?.map Prod.fst

end OrderBook
