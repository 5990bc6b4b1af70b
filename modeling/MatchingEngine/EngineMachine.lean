import MatchingEngine.Journal
import MatchingEngine.Transitions

/-! # The engine as a state machine

Producers push, one thread controls, and the matching thread pops, journals, applies and
publishes. A step is one access to shared state. `Trace` records what happened and is
read by no step. -/
namespace EngineMachine

open EngineTypes
open Orders
open OrderBook
open BookRuns
open Journal
open Transitions

/-! ## The command queue -/

structure ThreadSafeQueue (α : Type) where
  items : List α
  stopping : Bool

namespace ThreadSafeQueue

variable {α : Type}

def push (q : ThreadSafeQueue α) (item : α) : ThreadSafeQueue α :=
  { q with items := q.items ++ [item] }

/-- `none` while the caller waits. -/
def pop (q : ThreadSafeQueue α) : Option (Option α × ThreadSafeQueue α) :=
  match q.items with
  | item :: items => some (some item, { q with items := items })
  | [] => if q.stopping then some (none, q) else none

def stop (q : ThreadSafeQueue α) : ThreadSafeQueue α := { q with stopping := true }

def reset (q : ThreadSafeQueue α) : ThreadSafeQueue α := { q with stopping := false }

end ThreadSafeQueue

/-! ## Applying and replaying -/

/-- The engine's own state, touched by the matching thread or by `recover`. -/
structure Core where
  book : Book
  tradeLog : List Trade
  nextSeq : UInt64

def freshCore : Core := ⟨emptyBook, [], 1⟩

abbrev CoreM := EStateM Failure Core

def onBook {α : Type} (m : BookM α) : CoreM α := fun c =>
  match m.run c.book with
  | .ok a b => .ok a { c with book := b }
  | .error f b => .error f { c with book := b }

def applyEvent (ev : JournalEvent) : CoreM (List Trade) := do
  match ev.type with
  | .submit =>
    match createOrder ev.kind ev.orderId ev.traderId ev.side ev.quantity ev.price with
    | .error f => throw f
    | .ok order => onBook (addOrder (some order))
  | .cancel =>
    let _ ← onBook (cancelOrder ev.orderId)
    return []

/-- The loop of `recover`; it returns the largest sequence number. -/
def replay : List JournalEvent → UInt64 → CoreM UInt64
  | [], maxSeq => return maxSeq
  | ev :: events, maxSeq => do
    let trades ← applyEvent ev
    modify fun c => { c with tradeLog := c.tradeLog ++ trades }
    replay events (max maxSeq ev.seq)

def recover (events : List JournalEvent) : CoreM Unit := do
  let maxSeq ← replay events 0
  modify fun c => { c with nextSeq := maxSeq + 1 }

/-- What the matching loop applies a command with. -/
def applyCommand : Command → CoreM (List Trade)
  | .submit order => onBook (addOrder (some order.1))
  | .cancel id => do
    let _ ← onBook (cancelOrder id)
    return []

/-! ## The state -/

/-- Where the matching thread is. `pending` has the trades of `cmd` not yet published. -/
inductive LoopPc where
  | ready
  | popped (cmd : Command)
  | journaled (cmd : Command)
  | publishing (cmd : Command) (pending : List Trade)
  | logged (cmd : Command) (t : Trade) (pending : List Trade)
  | recorded (cmd : Command) (t : Trade) (pending : List Trade)
  | sent (cmd : Command) (t : Trade) (pending : List Trade)
  | finished
  | terminated (cmd : Command) (f : Failure)

/-- Where the controlling thread is. `mark` is how many pushes were complete when `stop` was
called, `target` what its `flush` waits for. -/
inductive ControlPc where
  | idle
  | startJoin
  | startReset
  | startLaunch
  | stopQueue (mark : ℕ)
  | stopJoin (mark : ℕ)
  | stopFlush (mark : ℕ)
  | stopWait (mark target : ℕ)
  deriving DecidableEq

/-- A call on the market-data sink. `position` is where the trade stands in the trade log. -/
inductive SinkCall where
  | onTrade (position : ℕ) (trade : Trade)
  | onTopOfBook (hasBid : Bool) (bid : Double) (hasAsk : Bool) (ask : Double)

/-- What happened: in this process, and (`history`, `sink`, `callbacks`) in all of them. -/
structure Trace where
  pushed : List (ℕ × Command)
  appended : List JournalEvent
  applied : List Command
  /-- Book and trade log after recovery and after each command. -/
  passed : List (Book × List Trade)
  recovered : List JournalEvent
  history : List Command
  sink : List SinkCall
  callbacks : List (ℕ × Trade)

structure Engine (J : Type) where
  core : Core
  queue : ThreadSafeQueue Command
  running : Bool
  thread : Option LoopPc
  control : ControlPc
  onTrade : Bool
  journal : J
  trace : Trace

/-- A constructed engine on a journal, not recovered. -/
def initial {J : Type} (j : J) : Engine J where
  core := freshCore
  queue := ⟨[], false⟩
  running := false
  thread := none
  control := .idle
  onTrade := false
  journal := j
  trace := ⟨[], [], [], [(emptyBook, [])], [], [], [], []⟩

def topOfBook (b : Book) : SinkCall :=
  .onTopOfBook (getBestBid b).isSome (((getBestBid b).map LimitPrice.val).getD Double.zero)
    (getBestAsk b).isSome (((getBestAsk b).map LimitPrice.val).getD Double.zero)

/-! ## Steps -/

section Steps

variable {J : Type} [IJournal J]

/-- `WRITE-AHEAD`: take a number, build the event, append it. -/
def journalCommand (s : Engine J) (cmd : Command) (now : Int64) : Engine J :=
  let ev := cmd.event s.core.nextSeq now
  { s with
    core := { s.core with nextSeq := s.core.nextSeq + 1 }
    journal := IJournal.append s.journal ev
    thread := some (.journaled cmd)
    trace := { s.trace with
      appended := s.trace.appended ++ [ev]
      history := s.trace.history ++ [cmd] } }

/-- An exception leaves the thread function, so the process is terminated. -/
def applyStep (s : Engine J) (cmd : Command) : Engine J :=
  match (applyCommand cmd).run s.core with
  | .ok trades core =>
    { s with
      core := core
      thread := some (.publishing cmd trades)
      trace := { s.trace with applied := s.trace.applied ++ [cmd] } }
  | .error f core => { s with core := core, thread := some (.terminated cmd f) }

/-- One step of `runMatchingLoop`; `now` is the wall clock when the step reads it. -/
def loopStep (now : Int64) (s : Engine J) : Option (Engine J) :=
  match s.thread with
  | some .ready =>
    match s.queue.pop with
    | none => none
    | some (none, q) => some { s with queue := q, thread := some .finished }
    | some (some cmd, q) => some { s with queue := q, thread := some (.popped cmd) }
  | some (.popped cmd) => some (journalCommand s cmd now)
  | some (.journaled cmd) => some (applyStep s cmd)
  | some (.publishing cmd (t :: pending)) =>
    some { s with
      core := { s.core with tradeLog := s.core.tradeLog ++ [t] }
      thread := some (.logged cmd t pending) }
  | some (.logged cmd t pending) =>
    some { s with
      journal := IJournal.recordTrade s.journal t now
      thread := some (.recorded cmd t pending) }
  | some (.recorded cmd t pending) =>
    some { s with
      thread := some (.sent cmd t pending)
      trace := { s.trace with
        sink := s.trace.sink ++ [.onTrade (s.core.tradeLog.length - 1) t] } }
  | some (.sent cmd t pending) =>
    some { s with
      thread := some (.publishing cmd pending)
      trace := { s.trace with
        callbacks := if s.onTrade then
          s.trace.callbacks ++ [(s.core.tradeLog.length - 1, t)] else s.trace.callbacks } }
  | some (.publishing _ []) =>
    some { s with
      thread := some .ready
      trace := { s.trace with
        sink := s.trace.sink ++ [topOfBook s.core.book]
        passed := s.trace.passed ++ [(s.core.book, s.core.tradeLog)] } }
  | some .finished => none
  | some (.terminated _ _) => none
  | none => none

/-- Whether a `join` of the matching thread returns: it has finished, or there is none. -/
def joined (s : Engine J) : Bool :=
  match s.thread with
  | none => true
  | some .finished => true
  | some _ => false

/-- One step of `start` or `stop` after its test of `running_`. -/
def controlStep (s : Engine J) : Option (Engine J) :=
  match s.control with
  | .idle => none
  | .startJoin =>
    if joined s then some { s with thread := none, control := .startReset } else none
  | .startReset => some { s with queue := s.queue.reset, control := .startLaunch }
  | .startLaunch => some { s with running := true, thread := some .ready, control := .idle }
  | .stopQueue mark => some { s with queue := s.queue.stop, control := .stopJoin mark }
  | .stopJoin mark =>
    if joined s then some { s with thread := none, control := .stopFlush mark } else none
  | .stopFlush mark =>
    some { s with control := .stopWait mark (IJournal.flushTarget s.journal) }
  | .stopWait _ target =>
    if IJournal.flushed s.journal target then some { s with control := .idle } else none

/-- No thread of a terminated process takes a step. -/
def alive (s : Engine J) : Bool :=
  match s.thread with
  | some (.terminated _ _) => false
  | _ => true

/-- A call of a producer, of any thread or of the controlling thread, or a thread's next step. -/
inductive Event where
  | push (producer : ℕ) (cmd : Command)
  | setOnTrade (set : Bool)
  | start
  | stop
  | control
  | loop (now : Int64)

def next (s : Engine J) (e : Event) : Option (Engine J) :=
  if alive s then
    match e with
    | .push producer cmd =>
      some { s with
        queue := s.queue.push cmd
        trace := { s.trace with pushed := s.trace.pushed ++ [(producer, cmd)] } }
    | .setOnTrade set => some { s with onTrade := set }
    | .start =>
      if s.control = .idle then
        if s.running then some s else some { s with control := .startJoin }
      else none
    | .stop =>
      if s.control = .idle then
        if s.running then
          some { s with running := false, control := .stopQueue s.trace.pushed.length }
        else some s
      else none
    | .control => controlStep s
    | .loop now => loopStep now s
  else none

def events (s : Engine J) : List Event → Option (Engine J)
  | [] => some s
  | e :: es => (next s e).bind fun s' => events s' es

inductive Step : Engine J → Engine J → Prop
  | event {s s' : Engine J} (e : Event) : next s e = some s' → Step s s'
  | background (s : Engine J) (j : J) : alive s → IJournal.Background s.journal j →
      Step s { s with journal := j }

theorem events_reachable {s₀ s s' : Engine J} {es : List Event} (h : Reachable Step s₀ s)
    (he : events s es = some s') : Reachable Step s₀ s' := by
  induction es generalizing s with
  | nil =>
    cases he
    exact h
  | cons e es ih =>
    obtain ⟨s₁, hs₁, hrest⟩ := Option.bind_eq_some_iff.mp he
    exact ih (.next h trivial (.event e hs₁)) hrest

/-- The next process: a fresh engine on what is left of the journal, after `recover()`. -/
def restarted (s : Engine J) : Engine J :=
  let j := IJournal.reopen s.journal
  let core := stateAfter ((recover (IJournal.loadAll j)).run freshCore)
  { (initial j) with
    core := core
    trace := { s.trace with
      pushed := []
      appended := []
      applied := []
      passed := [(core.book, core.tradeLog)]
      recovered := IJournal.loadAll j } }

/-- A step of one process, or its crash and the start of the next. -/
inductive Lives : Engine J → Engine J → Prop
  | run {s s' : Engine J} : Step s s' → Lives s s'
  | crash (s : Engine J) : Lives s (restarted s)

end Steps

end EngineMachine
