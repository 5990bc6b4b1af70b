import Mathlib.Logic.Function.Basic
import MatchingEngine.Orders
import MatchingEngine.Transitions

/-! # The market data in Redis

The matching thread puts messages on a queue. A publisher thread takes all of them at once,
appends three commands for each to the connection, and reads one reply for each command. The
server runs the commands of a pipeline in order. A connection can break at any of the replies,
and then the rest of its commands is lost. Only this publisher writes the keys `md:...`. -/
namespace RedisMarketData

open EngineTypes
open Orders
open Transitions

/-! ## Numbers as text -/

/-- The nearest integer to `n / d`, the even one of two. -/
def roundHalfEven (n d : ℕ) : ℕ :=
  if 2 * (n % d) < d then n / d
  else if d < 2 * (n % d) then n / d + 1
  else if n / d % 2 = 0 then n / d
  else n / d + 1

/-- The magnitude of a finite double in millionths, as `%f` rounds it. -/
def millionths (x : Double) : ℕ :=
  let fraction := x.magnitude % 2 ^ 52
  let significand := if x.exponent = 0 then fraction else 2 ^ 52 + fraction
  let exponent := max x.exponent 1
  if 1075 ≤ exponent then significand * 10 ^ 6 * 2 ^ (exponent - 1075)
  else roundHalfEven (significand * 10 ^ 6) (2 ^ (1075 - exponent))

/-- `std::to_string` of a double: six decimals. -/
def num (x : Double) : String :=
  (if x.negative then "-" else "") ++
    if x.isNaN then "nan"
    else if x.isFinite = false then "inf"
    else toString (millionths x / 10 ^ 6) ++ "." ++
      String.ofList (List.leftpad 6 '0' (Nat.toDigits 10 (millionths x % 10 ^ 6)))

example : num LimitPrice.hundred.val = "100.000000" := by decide +kernel

/-! ## Messages and commands -/

/-- `kind` says which fields of the source's struct have a meaning: these. -/
inductive Msg where
  | trade (buyId sellId : OrderId) (price : Double) (quantity : Int32) (epochNanos : Int64)
  | book (hasBid hasAsk : Bool) (bid ask : Double)
  deriving DecidableEq

def Msg.isBook : Msg → Bool
  | .trade _ _ _ _ _ => false
  | .book _ _ _ _ => true

inductive RedisCommand where
  | publish (channel payload : String)
  | set (key value : String)
  | del (key : String)
  | incr (key : String)
  deriving DecidableEq

/-- The command for one side of a book message. -/
def cacheSide (key : String) (has : Bool) (price : Double) : RedisCommand :=
  if has then .set key (num price) else .del key

def Msg.commands : Msg → List RedisCommand
  | .trade buyId sellId price quantity epochNanos =>
    let payload := toString buyId.toNat ++ "," ++ toString sellId.toNat ++ "," ++ num price ++ "," ++
      toString quantity.toInt ++ "," ++ toString epochNanos.toInt
    [.publish "md:trades" payload, .set "md:last_price" (num price), .incr "md:trade_count"]
  | .book hasBid hasAsk bid ask =>
    let book := (if hasBid then num bid else "-") ++ "," ++ (if hasAsk then num ask else "-")
    [cacheSide "md:best_bid" hasBid bid, cacheSide "md:best_ask" hasAsk ask,
      .publish "md:book" book]

/-- The three-commands-per-message stream. -/
def stream (msgs : List Msg) : List RedisCommand := msgs.flatMap Msg.commands

/-! ## The server -/

abbrev Store := String → Option String

/-- The text of an integer below the largest is counted up, an absent key counts as 0, and
anything else is an error that leaves the key as it is. -/
def incremented (value : Option String) : Option String :=
  match value with
  | none => some "1"
  | some v =>
    match v.toInt? with
    | none => some v
    | some n => if toString n = v ∧ n + 1 < 2 ^ 63 then some (toString (n + 1)) else some v

def perform (store : Store) : RedisCommand → Store
  | .publish _ _ => store
  | .set key value => Function.update store key (some value)
  | .del key => Function.update store key none
  | .incr key => Function.update store key (incremented (store key))

/-! ## The publisher -/

/-- `ctx_`: what has been appended and not yet run by the server, in order, and how many
replies wait to be read. -/
structure RedisContext where
  err : Bool
  inFlight : List RedisCommand
  replies : ℕ

def RedisContext.connected : RedisContext := ⟨false, [], 0⟩

/-- What `redisConnect` returns: a context, one with an error, or a null pointer. -/
inductive Connect where
  | ok
  | error
  | null
  deriving DecidableEq

def redisConnect : Connect → Option RedisContext × Bool
  | .ok => (some .connected, true)
  | .error => (some ⟨true, [], 0⟩, false)
  | .null => (none, false)

/-- `reconnects` is whether `redisReconnect` succeeds. -/
def ensureConnected (ctx : Option RedisContext) (reconnects : Bool) (connect : Connect) :
    Option RedisContext × Bool :=
  match ctx with
  | none => redisConnect connect
  | some c =>
    if c.err = false then (some c, true)
    else if reconnects then (some .connected, true)
    else redisConnect connect

/-- The loop that appends a batch. `none` where the `int` that counts the commands overflows. -/
def appendAll : ℤ → List RedisCommand → List Msg → Option (ℤ × List RedisCommand)
  | pipelined, out, [] => some (pipelined, out)
  | pipelined, out, m :: batch =>
    if pipelined + 3 < 2 ^ 31 then appendAll (pipelined + 3) (out ++ m.commands) batch else none

/-- Where the publisher thread is. `appended` commands were appended for the batch, and `i`
counts the replies read. -/
inductive PublisherPc where
  | waiting
  | taken (batch : List Msg)
  | draining (batch : List Msg) (appended : ℕ) (pipelined i : ℤ)
  | overflowed (batch : List Msg)
  | exited
  deriving DecidableEq

/-- How a batch stands: replies outstanding, not connected, broken at a reply, or all replies read. -/
inductive Outcome where
  | draining
  | dropped
  | broke
  | sent
  deriving DecidableEq

/-- What became of one batch: commands appended and run by the server, and replies read. -/
structure Attempt where
  msgs : List Msg
  appended : ℕ
  executed : ℕ
  read : ℤ
  outcome : Outcome

/-- What happened: the messages of all calls, the commands in the order in which the server ran
them, and the batches that have ended. -/
structure Trace where
  calls : List Msg
  executed : List RedisCommand
  attempts : List Attempt

structure Publisher where
  queue : List Msg
  stopping : Bool
  ctx : Option RedisContext
  pc : PublisherPc
  commandsSent : UInt64
  store : Store
  trace : Trace

/-- Constructed and connected, on a server that may hold anything. -/
def initial (store : Store) : Publisher where
  queue := []
  stopping := false
  ctx := some .connected
  pc := .waiting
  commandsSent := 0
  store := store
  trace := ⟨[], [], []⟩

/-- A call of the matching thread or of the destructor, a step of the publisher thread or of the
server. `now` is the wall clock, `lost` a reply that does not come. -/
inductive Event where
  | onTrade (trade : Trade) (now : Int64)
  | onTopOfBook (hasBid : Bool) (bid : Double) (hasAsk : Bool) (ask : Double)
  | stop
  | wake
  | connect (reconnects : Bool) (result : Connect)
  | execute
  | reply
  | lost
  | finish

def enqueue (s : Publisher) (m : Msg) : Publisher :=
  { s with
    queue := s.queue ++ [m]
    trace := { s.trace with calls := s.trace.calls ++ [m] } }

/-- `ensureConnected()`, and the batch is dropped or its commands are appended. -/
def connectStep (s : Publisher) (batch : List Msg) (reconnects : Bool) (result : Connect) :
    Publisher :=
  match ensureConnected s.ctx reconnects result with
  | (some c, true) =>
    match appendAll 0 [] batch with
    | none => { s with ctx := some c, pc := .overflowed batch }
    | some (pipelined, out) =>
      { s with
        ctx := some { c with inFlight := c.inFlight ++ out }
        pc := .draining batch out.length pipelined 0 }
  | (ctx, _) =>
    { s with
      ctx := ctx
      pc := .waiting
      trace := { s.trace with attempts := s.trace.attempts ++ [⟨batch, 0, 0, 0, .dropped⟩] } }

/-- The server runs the next command of the pipeline and replies. -/
def executeStep (s : Publisher) : Option Publisher :=
  match s.ctx with
  | some ⟨false, cmd :: rest, replies⟩ =>
    some { s with
      ctx := some ⟨false, rest, replies + 1⟩
      store := perform s.store cmd
      trace := { s.trace with executed := s.trace.executed ++ [cmd] } }
  | _ => none

/-- The record of a batch: of the commands appended, those that are not in flight have run. -/
def attemptOf (c : RedisContext) (batch : List Msg) (appended : ℕ) (i : ℤ) (outcome : Outcome) :
    Attempt :=
  ⟨batch, appended, appended - c.inFlight.length, i, outcome⟩

/-- `redisGetReply` in the loop over the replies, and what follows the loop. -/
def drainStep (s : Publisher) (c : RedisContext) (batch : List Msg) (appended : ℕ)
    (pipelined i : ℤ) : Event → Option Publisher
  | .reply =>
    if i < pipelined ∧ 0 < c.replies then
      some { s with
        ctx := some { c with replies := c.replies - 1 }
        pc := .draining batch appended pipelined (i + 1) }
    else none
  | .lost =>
    if i < pipelined then
      some { s with
        ctx := some ⟨true, [], 0⟩
        pc := .waiting
        trace := { s.trace with
          attempts := s.trace.attempts ++ [attemptOf c batch appended i .broke] } }
    else none
  | .finish =>
    if i < pipelined then none
    else some { s with
      pc := .waiting
      commandsSent := s.commandsSent + UInt64.ofInt pipelined
      trace := { s.trace with
        attempts := s.trace.attempts ++ [attemptOf c batch appended i .sent] } }
  | _ => none

def next (s : Publisher) (e : Event) : Option Publisher :=
  match e with
  | .onTrade trade now =>
    if s.stopping then none
    else some (enqueue s (.trade trade.buyOrderId trade.sellOrderId trade.price.val trade.quantity now))
  | .onTopOfBook hasBid bid hasAsk ask =>
    if s.stopping then none else some (enqueue s (.book hasBid hasAsk bid ask))
  | .stop => some { s with stopping := true }
  | .wake =>
    if s.pc = .waiting then
      if s.queue = [] then if s.stopping then some { s with pc := .exited } else none
      else some { s with pc := .taken s.queue, queue := [] }
    else none
  | .connect reconnects result =>
    match s.pc with
    | .taken batch => some (connectStep s batch reconnects result)
    | _ => none
  | .execute => executeStep s
  | e =>
    match s.pc, s.ctx with
    | .draining batch appended pipelined i, some c => drainStep s c batch appended pipelined i e
    | _, _ => none

def Step (s s' : Publisher) : Prop := ∃ e, next s e = some s'

def events (s : Publisher) : List Event → Option Publisher
  | [] => some s
  | e :: es => (next s e).bind fun s' => events s' es

theorem events_reachable {s₀ s s' : Publisher} {es : List Event} (h : Reachable Step s₀ s)
    (he : events s es = some s') : Reachable Step s₀ s' := by
  induction es generalizing s with
  | nil =>
    cases he
    exact h
  | cons e es ih =>
    obtain ⟨s₁, hs₁, hrest⟩ := Option.bind_eq_some_iff.mp he
    exact ih (.next h trivial ⟨e, hs₁⟩) hrest

end RedisMarketData
