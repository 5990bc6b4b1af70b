import Mathlib.Data.List.Sort
import MatchingEngine.BatchLog
import MatchingEngine.Journal

/-! # The journal in a database

`append` and `recordTrade` put records on two queues. A writer thread takes both at once and
writes what it took in one transaction. A transaction that commits leaves all of its rows,
one that throws leaves none. -/
namespace DatabaseJournal

open EngineTypes
open Orders
open Journal
open BatchLog

/-! ## Rows -/

def encodeCmd : CommandType → Int32
  | .submit => 0
  | .cancel => 1

def decodeCmd (v : Int32) : CommandType := if v = 0 then .submit else .cancel

def encodeKind : OrderKind → Int32
  | .limit => 1
  | .market => 0

def decodeKind (v : Int32) : OrderKind := if v = 1 then .limit else .market

def encodeSide : Side → Int32
  | .buy => 0
  | .sell => 1

def decodeSide (v : Int32) : Side := if v = 0 then .buy else .sell

/-- A row of the table `events`, whose primary key is `seq`. -/
structure EventsRow where
  seq : Int64
  type : Int16
  kind : Int16
  orderId : Int64
  traderId : Int64
  side : Int16
  quantity : Int32
  price : Double
  epochNanos : Int64
  deriving DecidableEq

/-- A row of the table `trades`, less the serial number that the database gives it. -/
structure TradesRow where
  buyOrderId : Int64
  sellOrderId : Int64
  price : Double
  quantity : Int32
  epochNanos : Int64
  deriving DecidableEq

/-- A trade with the wall-clock time it was recorded. -/
structure TradeRow where
  trade : Trade
  epochNanos : Int64
  deriving DecidableEq

def insEvent (ev : JournalEvent) : EventsRow where
  seq := ev.seq.toInt64
  type := (encodeCmd ev.type).toInt16
  kind := (encodeKind ev.kind).toInt16
  orderId := ev.orderId.toInt64
  traderId := ev.traderId.toInt64
  side := (encodeSide ev.side).toInt16
  quantity := ev.quantity
  price := ev.price
  epochNanos := ev.epochNanos

def insTrade (tr : TradeRow) : TradesRow where
  buyOrderId := tr.trade.buyOrderId.toInt64
  sellOrderId := tr.trade.sellOrderId.toInt64
  price := tr.trade.price.val
  quantity := tr.trade.quantity
  epochNanos := tr.epochNanos

/-- What `loadAll` makes of a row. -/
def readEvent (row : EventsRow) : JournalEvent where
  seq := row.seq.toUInt64
  type := decodeCmd row.type.toInt32
  kind := decodeKind row.kind.toInt32
  orderId := row.orderId.toUInt64
  traderId := row.traderId.toUInt64
  side := decodeSide row.side.toInt32
  quantity := row.quantity
  price := row.price
  epochNanos := row.epochNanos

/-- A row keeps the whole event. -/
theorem readEvent_insEvent (ev : JournalEvent) : readEvent (insEvent ev) = ev := by
  have htype : decodeCmd (encodeCmd ev.type).toInt16.toInt32 = ev.type := by
    cases ev.type <;> rfl
  have hkind : decodeKind (encodeKind ev.kind).toInt16.toInt32 = ev.kind := by
    cases ev.kind <;> rfl
  have hside : decodeSide (encodeSide ev.side).toInt16.toInt32 = ev.side := by
    cases ev.side <;> rfl
  simp only [readEvent, insEvent, htype, hkind, hside]
  rfl

structure Database where
  events : List EventsRow
  trades : List TradesRow

/-! ## The journal and its writer -/

/-- Where the writer thread is: at its wait, with a batch in hand, or past its transaction. -/
inductive WriterPc where
  | waiting
  | writing (events : List JournalEvent) (trades : List TradeRow)
  | ended (batchCount : ℕ)
  | exited

/-- What was handed over, of either kind. -/
inductive Record where
  | event (ev : JournalEvent)
  | trade (row : TradeRow)
  deriving DecidableEq

def Record.event? : Record → Option JournalEvent
  | .event ev => some ev
  | .trade _ => none

def Record.trade? : Record → Option TradeRow
  | .event _ => none
  | .trade row => some row

/-- What happened since the journal was opened on the tables `opened`; read by no step. The
records of the batches, those in the writer's hands and those queued are in the order they
were handed over. -/
structure JournalTrace where
  opened : Database
  batches : List (Batch Record)
  inHand : List Record
  queued : List Record

/-- The counters are `std::uint64_t`; no process lives to see one wrap. -/
structure PostgresJournal where
  db : Database
  eventQueue : List JournalEvent
  tradeQueue : List TradeRow
  stopping : Bool
  enqueued : ℕ
  done : ℕ
  eventsWritten : ℕ
  tradesWritten : ℕ
  batchesCommitted : ℕ
  writer : WriterPc
  trace : JournalTrace

def openJournal (db : Database) : PostgresJournal where
  db := db
  eventQueue := []
  tradeQueue := []
  stopping := false
  enqueued := 0
  done := 0
  eventsWritten := 0
  tradesWritten := 0
  batchesCommitted := 0
  writer := .waiting
  trace := ⟨db, [], [], []⟩

def append (j : PostgresJournal) (ev : JournalEvent) : PostgresJournal :=
  { j with
    eventQueue := j.eventQueue ++ [ev]
    enqueued := j.enqueued + 1
    trace := { j.trace with queued := j.trace.queued ++ [.event ev] } }

def recordTrade (j : PostgresJournal) (t : Trade) (now : Int64) : PostgresJournal :=
  { j with
    tradeQueue := j.tradeQueue ++ [⟨t, now⟩]
    enqueued := j.enqueued + 1
    trace := { j.trace with queued := j.trace.queued ++ [.trade ⟨t, now⟩] } }

/-- The destructor asks the writer to stop. -/
def requestStop (j : PostgresJournal) : PostgresJournal := { j with stopping := true }

def commitBatch (j : PostgresJournal) (events : List JournalEvent) (trades : List TradeRow) :
    PostgresJournal :=
  { j with
    db := ⟨j.db.events ++ events.map insEvent, j.db.trades ++ trades.map insTrade⟩
    eventsWritten := j.eventsWritten + events.length
    tradesWritten := j.tradesWritten + trades.length
    batchesCommitted := j.batchesCommitted + 1
    writer := .ended (events.length + trades.length)
    trace := { j.trace with
      batches := j.trace.batches ++ [⟨j.trace.inHand, true⟩]
      inHand := [] } }

/-- The exception is logged, and the loop goes on without the batch. -/
def dropBatch (j : PostgresJournal) (events : List JournalEvent) (trades : List TradeRow) :
    PostgresJournal :=
  { j with
    writer := .ended (events.length + trades.length)
    trace := { j.trace with
      batches := j.trace.batches ++ [⟨j.trace.inHand, false⟩]
      inHand := [] } }

/-- One transaction. It also throws if a sequence number is in the table already. -/
def transaction (commits : Bool) (j : PostgresJournal) (events : List JournalEvent)
    (trades : List TradeRow) : PostgresJournal :=
  if commits = true ∧ ((j.db.events ++ events.map insEvent).map EventsRow.seq).Nodup then
    commitBatch j events trades
  else dropBatch j events trades

/-- One step of `writerLoop`; `commits` is how a transaction turns out. -/
def writerStep (commits : Bool) (j : PostgresJournal) : Option PostgresJournal :=
  match j.writer with
  | .waiting =>
    if j.eventQueue.isEmpty && j.tradeQueue.isEmpty then
      if j.stopping then some { j with writer := .exited } else none
    else
      some { j with
        eventQueue := []
        tradeQueue := []
        writer := .writing j.eventQueue j.tradeQueue
        trace := { j.trace with
          inHand := j.trace.queued
          queued := [] } }
  | .writing events trades => some (transaction commits j events trades)
  | .ended batchCount => some { j with done := j.done + batchCount, writer := .waiting }
  | .exited => none

/-- `ORDER BY seq ASC` compares the column, which is signed. -/
def loadAll (j : PostgresJournal) : List JournalEvent :=
  (j.db.events.insertionSort fun a b => a.seq ≤ b.seq).map readEvent

instance : IJournal PostgresJournal where
  append := append
  recordTrade := recordTrade
  loadAll := loadAll
  flushTarget j := j.enqueued
  flushed j target := decide (target ≤ j.done) || j.stopping
  Background j j' := ∃ commits, writerStep commits j = some j'
  reopen j := openJournal j.db

/-- All records handed over since the journal was opened, in order. -/
def log (j : PostgresJournal) : List Record :=
  attempted j.trace.batches ++ j.trace.inHand ++ j.trace.queued

@[simp] theorem log_append (j : PostgresJournal) (ev : JournalEvent) :
    log (append j ev) = log j ++ [.event ev] := by
  simp [log, append]

@[simp] theorem log_recordTrade (j : PostgresJournal) (t : Trade) (now : Int64) :
    log (recordTrade j t now) = log j ++ [.trade ⟨t, now⟩] := by
  simp [log, recordTrade]

@[simp] theorem log_openJournal (db : Database) : log (openJournal db) = [] := rfl

/-! ## Moves of the writer -/

/-- Everything that a step of the writer can be. -/
inductive WriterMove (commits : Bool) (j : PostgresJournal) : PostgresJournal → Prop
  | exit (hw : j.writer = .waiting) (he : j.eventQueue = []) (ht : j.tradeQueue = [])
      (hs : j.stopping = true) : WriterMove commits j { j with writer := .exited }
  | take (hw : j.writer = .waiting) : WriterMove commits j { j with
      eventQueue := []
      tradeQueue := []
      writer := .writing j.eventQueue j.tradeQueue
      trace := { j.trace with
        inHand := j.trace.queued
        queued := [] } }
  | write (events : List JournalEvent) (trades : List TradeRow)
      (hw : j.writer = .writing events trades) :
      WriterMove commits j (transaction commits j events trades)
  | count (batchCount : ℕ) (hw : j.writer = .ended batchCount) :
      WriterMove commits j { j with done := j.done + batchCount, writer := .waiting }

theorem writer_cases {commits : Bool} {j j' : PostgresJournal}
    (hs : writerStep commits j = some j') : WriterMove commits j j' := by
  rw [writerStep] at hs
  cases hw : j.writer with
  | waiting =>
    simp only [hw] at hs
    split at hs
    · rename_i hempty
      rw [Bool.and_eq_true, List.isEmpty_iff, List.isEmpty_iff] at hempty
      simp only [Option.ite_none_right_eq_some, Option.some.injEq] at hs
      exact hs.2 ▸ .exit hw hempty.1 hempty.2 hs.1
    · cases hs
      exact .take hw
  | writing events trades =>
    simp only [hw] at hs
    cases hs
    exact .write events trades hw
  | ended batchCount =>
    simp only [hw] at hs
    cases hs
    exact .count batchCount hw
  | exited =>
    simp only [hw] at hs
    cases hs

/-! ## What the writer owes -/

/-- The batch that the writer has taken and not closed. -/
def batchInHand : WriterPc → List JournalEvent × List TradeRow
  | .writing events trades => (events, trades)
  | _ => ([], [])

/-- Records whose transaction is over and that `done_` does not count yet. -/
def uncounted : WriterPc → ℕ
  | .ended batchCount => batchCount
  | _ => 0

structure JournalInvariant (j : PostgresJournal) : Prop where
  queues : j.eventQueue = j.trace.queued.filterMap Record.event? ∧
    j.tradeQueue = j.trace.queued.filterMap Record.trade?
  hand : batchInHand j.writer =
    (j.trace.inHand.filterMap Record.event?, j.trace.inHand.filterMap Record.trade?)
  enqueued : j.enqueued = (log j).length
  done : j.done + uncounted j.writer = (attempted j.trace.batches).length
  events : j.db.events =
    j.trace.opened.events ++ ((kept j.trace.batches).filterMap Record.event?).map insEvent
  trades : j.db.trades =
    j.trace.opened.trades ++ ((kept j.trace.batches).filterMap Record.trade?).map insTrade
  eventsWritten : j.eventsWritten = ((kept j.trace.batches).filterMap Record.event?).length
  tradesWritten : j.tradesWritten = ((kept j.trace.batches).filterMap Record.trade?).length
  batchesCommitted : j.batchesCommitted = (j.trace.batches.filter Batch.kept).length

theorem openJournal_invariant (db : Database) : JournalInvariant (openJournal db) := by
  constructor <;> simp [openJournal, batchInHand, uncounted, log]

/-- Every record is an event or a trade. -/
theorem length_kinds (records : List Record) : (records.filterMap Record.event?).length +
    (records.filterMap Record.trade?).length = records.length := by
  induction records with
  | nil => rfl
  | cons r records ih =>
    cases r with
    | event ev =>
      simp only [List.filterMap_cons, Record.event?, Record.trade?, List.length_cons]
      omega
    | trade row =>
      simp only [List.filterMap_cons, Record.event?, Record.trade?, List.length_cons]
      omega

variable {j j' : PostgresJournal}

theorem append_invariant (h : JournalInvariant j) (ev : JournalEvent) :
    JournalInvariant (append j ev) := by
  obtain ⟨⟨he, ht⟩, hhand, henq, hdone, hevents, htrades, hew, htw, hbc⟩ := h
  refine ⟨⟨?_, ?_⟩, hhand, ?_, hdone, hevents, htrades, hew, htw, hbc⟩
  · simp [append, he, Record.event?]
  · simp [append, ht, Record.trade?]
  · rw [log_append, List.length_append, ← henq]
    rfl

theorem recordTrade_invariant (h : JournalInvariant j) (t : Trade) (now : Int64) :
    JournalInvariant (recordTrade j t now) := by
  obtain ⟨⟨he, ht⟩, hhand, henq, hdone, hevents, htrades, hew, htw, hbc⟩ := h
  refine ⟨⟨?_, ?_⟩, hhand, ?_, hdone, hevents, htrades, hew, htw, hbc⟩
  · simp [recordTrade, he, Record.event?]
  · simp [recordTrade, ht, Record.trade?]
  · rw [log_recordTrade, List.length_append, ← henq]
    rfl

theorem requestStop_invariant (h : JournalInvariant j) : JournalInvariant (requestStop j) := by
  obtain ⟨hqueues, hhand, henq, hdone, hevents, htrades, hew, htw, hbc⟩ := h
  exact ⟨hqueues, hhand, henq, hdone, hevents, htrades, hew, htw, hbc⟩

/-- A transaction closes the batch in hand, kept or lost. -/
theorem transaction_invariant {events : List JournalEvent} {trades : List TradeRow}
    (h : JournalInvariant j) (hw : j.writer = .writing events trades) (commits : Bool) :
    JournalInvariant (transaction commits j events trades) := by
  obtain ⟨hqueues, hhand, henq, hdone, hevents, htrades, hew, htw, hbc⟩ := h
  rw [hw] at hhand hdone
  obtain ⟨rfl, rfl⟩ := Prod.mk.inj hhand
  have hcount : j.done + ((j.trace.inHand.filterMap Record.event?).length +
      (j.trace.inHand.filterMap Record.trade?).length) =
      (attempted j.trace.batches ++ j.trace.inHand).length := by
    rw [length_kinds, List.length_append, ← hdone]
    rfl
  rw [log, List.append_assoc] at henq
  rw [transaction]
  split
  · constructor
    · exact hqueues
    · rfl
    · simpa [log, commitBatch] using henq
    · simpa [commitBatch, uncounted] using hcount
    · simp [commitBatch, hevents]
    · simp [commitBatch, htrades]
    · simp [commitBatch, hew]
    · simp [commitBatch, htw]
    · simp [commitBatch, hbc]
  · constructor
    · exact hqueues
    · rfl
    · simpa [log, dropBatch] using henq
    · simpa [dropBatch, uncounted] using hcount
    · simpa [dropBatch] using hevents
    · simpa [dropBatch] using htrades
    · simpa [dropBatch] using hew
    · simpa [dropBatch] using htw
    · simpa [dropBatch] using hbc

theorem waiting_hand (h : JournalInvariant j) (hw : j.writer = .waiting) : j.trace.inHand = [] := by
  have hhand := h.hand
  rw [hw] at hhand
  obtain ⟨hevents, htrades⟩ := Prod.mk.inj hhand
  apply List.eq_nil_of_length_eq_zero
  rw [← length_kinds, ← hevents, ← htrades]
  rfl

theorem writer_invariant {commits : Bool} (h : JournalInvariant j)
    (hs : writerStep commits j = some j') : JournalInvariant j' := by
  cases writer_cases hs with
  | exit hw =>
    obtain ⟨hqueues, hhand, henq, hdone, hevents, htrades, hew, htw, hbc⟩ := h
    rw [hw] at hhand hdone
    exact ⟨hqueues, hhand, henq, hdone, hevents, htrades, hew, htw, hbc⟩
  | take hw =>
    have hempty := waiting_hand h hw
    obtain ⟨⟨he, ht⟩, _, henq, hdone, hevents, htrades, hew, htw, hbc⟩ := h
    rw [hw] at hdone
    refine ⟨⟨rfl, rfl⟩, Prod.ext he ht, ?_, hdone, hevents, htrades, hew, htw, hbc⟩
    rw [henq]
    simp [log, hempty]
  | write events trades hw => exact transaction_invariant h hw commits
  | count batchCount hw =>
    obtain ⟨hqueues, hhand, henq, hdone, hevents, htrades, hew, htw, hbc⟩ := h
    rw [hw] at hhand hdone
    exact ⟨hqueues, hhand, henq, hdone, hevents, htrades, hew, htw, hbc⟩

/-- What the writer leaves alone; it moves records along and forgets none. -/
structure WriterFrame (j j' : PostgresJournal) : Prop where
  log : log j' = log j
  enqueued : j'.enqueued = j.enqueued
  stopping : j'.stopping = j.stopping
  opened : j'.trace.opened = j.trace.opened

theorem writer_frame {commits : Bool} (h : JournalInvariant j)
    (hs : writerStep commits j = some j') : WriterFrame j j' := by
  cases writer_cases hs with
  | exit => exact ⟨rfl, rfl, rfl, rfl⟩
  | take hw =>
    refine ⟨?_, rfl, rfl, rfl⟩
    simp [log, waiting_hand h hw]
  | write events trades hw =>
    rw [transaction]
    split
    · exact ⟨by simp [log, commitBatch], rfl, rfl, rfl⟩
    · exact ⟨by simp [log, dropBatch], rfl, rfl, rfl⟩
  | count => exact ⟨rfl, rfl, rfl, rfl⟩

/-- With both queues and the writer's hands empty, every record has been through a batch. -/
theorem log_of_drained (h : JournalInvariant j) (hevents : j.eventQueue = [])
    (htrades : j.tradeQueue = []) (hwriter : batchInHand j.writer = ([], [])) :
    log j = attempted j.trace.batches := by
  have hnone : ∀ records : List Record, records.filterMap Record.event? = [] →
      records.filterMap Record.trade? = [] → records = [] := by
    intro records he ht
    have hlen := length_kinds records
    rw [he, ht] at hlen
    exact List.eq_nil_of_length_eq_zero hlen.symm
  have hqueued := hnone j.trace.queued (h.queues.1.symm.trans hevents)
    (h.queues.2.symm.trans htrades)
  have hhand := h.hand
  rw [hwriter, Prod.mk.injEq] at hhand
  rw [log, hqueued, hnone _ hhand.1.symm hhand.2.symm, List.append_nil, List.append_nil]

/-! ## The fields after a transaction -/

section Transaction

variable (commits : Bool) (j : PostgresJournal) (events : List JournalEvent)
  (trades : List TradeRow)

@[simp] theorem transaction_enqueued :
    (transaction commits j events trades).enqueued = j.enqueued := by
  unfold transaction
  split <;> rfl

@[simp] theorem transaction_done : (transaction commits j events trades).done = j.done := by
  unfold transaction
  split <;> rfl

@[simp] theorem transaction_stopping :
    (transaction commits j events trades).stopping = j.stopping := by
  unfold transaction
  split <;> rfl

@[simp] theorem transaction_eventQueue :
    (transaction commits j events trades).eventQueue = j.eventQueue := by
  unfold transaction
  split <;> rfl

@[simp] theorem transaction_tradeQueue :
    (transaction commits j events trades).tradeQueue = j.tradeQueue := by
  unfold transaction
  split <;> rfl

@[simp] theorem transaction_writer :
    (transaction commits j events trades).writer = .ended (events.length + trades.length) := by
  unfold transaction
  split <;> rfl

end Transaction

end DatabaseJournal
