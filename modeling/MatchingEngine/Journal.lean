import MatchingEngine.BookRuns

/-! # Commands, journal events and the journal interface -/
namespace Journal

open EngineTypes
open Orders
open BookRuns

/-- A command owns a factory order or names the id to cancel. -/
inductive Command where
  | submit (order : NewOrder)
  | cancel (cancelId : OrderId)

/-- The call that the matching loop makes on the book for a command. -/
def Command.call : Command → Call
  | .submit order => .add (some order)
  | .cancel id => .cancel id

structure JournalEvent where
  seq : UInt64
  type : CommandType
  kind : OrderKind
  orderId : OrderId
  traderId : TraderId
  side : Side
  quantity : Int32
  price : Double
  epochNanos : Int64
  deriving DecidableEq

/-- The default member initializers of `JournalEvent`. -/
def JournalEvent.blank : JournalEvent :=
  ⟨0, .submit, .limit, 0, 0, .buy, 0, Double.zero, 0⟩

/-- `now` is the reading of the wall clock that the function takes. -/
def makeSubmitEvent (o : Order) (seq : UInt64) (now : Int64) : JournalEvent :=
  { seq := seq
    type := .submit
    kind := o.getOrderKind
    orderId := o.id
    traderId := o.traderId
    side := o.side
    quantity := o.quantity
    price :=
      -- `getPrice` throws for a market order, so only a limit order is asked.
      match o.getOrderKind, o.getPrice with
      | .limit, .ok price => price.val
      | _, _ => Double.zero
    epochNanos := now }

def makeCancelEvent (id : OrderId) (seq : UInt64) (now : Int64) : JournalEvent :=
  { JournalEvent.blank with seq := seq, type := .cancel, orderId := id, epochNanos := now }

def Command.event (cmd : Command) (seq : UInt64) (now : Int64) : JournalEvent :=
  match cmd with
  | .submit order => makeSubmitEvent order.1 seq now
  | .cancel id => makeCancelEvent id seq now

/-! ## The interface -/

/-- `flush()` is two steps: it notes how much has been handed over, and returns once
`flushed` holds. `Background` has the steps of the journal's own thread, and `reopen` is
what the next process finds when this one is gone. -/
class IJournal (J : Type) where
  append : J → JournalEvent → J
  recordTrade : J → Trade → Int64 → J
  loadAll : J → List JournalEvent
  flushTarget : J → ℕ
  flushed : J → ℕ → Bool
  Background : J → J → Prop
  reopen : J → J

inductive NullJournal where
  | nullJournal

instance : IJournal NullJournal where
  append j _ := j
  recordTrade j _ _ := j
  loadAll _ := []
  flushTarget _ := 0
  flushed _ _ := true
  Background _ _ := False
  reopen j := j

/-- Appended events are retained at once and survive the engine. -/
structure InMemoryJournal where
  events : List JournalEvent

instance : IJournal InMemoryJournal where
  append j ev := ⟨j.events ++ [ev]⟩
  recordTrade j _ _ := j
  loadAll j := j.events
  flushTarget _ := 0
  flushed _ _ := true
  Background _ _ := False
  reopen j := j

end Journal
