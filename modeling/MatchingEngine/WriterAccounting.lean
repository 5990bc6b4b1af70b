import MatchingEngine.DatabaseJournal
import MatchingEngine.Transitions

/-! # What the writer accounts for

An observer notes what callers hand over, what each waiting `flush()` found when it took the
lock, and each batch when its transaction is over. The counters and queues of the journal say
the same as these notes. -/
namespace WriterAccounting

open EngineTypes
open Orders
open Journal
open BatchLog
open DatabaseJournal
open Transitions

/-! ## The observer -/

/-- A batch as the writer held it, and whether `batchesCommitted_` went up. -/
structure Attempt where
  events : List JournalEvent
  trades : List TradeRow
  committed : Bool
  deriving DecidableEq

structure Waiting where
  target : ℕ
  appended : List JournalEvent
  recorded : List TradeRow
  deriving DecidableEq

structure Observed where
  journal : PostgresJournal
  appended : List JournalEvent
  recorded : List TradeRow
  attempts : List Attempt
  waiting : List Waiting

def observed (db : Database) : Observed := ⟨openJournal db, [], [], [], []⟩

/-- The batch whose transaction a step of the writer ends. -/
def ends (j j' : PostgresJournal) : List Attempt :=
  match j.writer with
  | .writing events trades => [⟨events, trades, j.batchesCommitted < j'.batchesCommitted⟩]
  | _ => []

/-- Any number of callers, the destructor, and the writer with any outcome of its transactions. -/
inductive ObservedStep : Observed → Observed → Prop
  | append (s : Observed) (ev : JournalEvent) : ObservedStep s
      { s with
        journal := append s.journal ev
        appended := s.appended ++ [ev] }
  | recordTrade (s : Observed) (t : Trade) (now : Int64) : ObservedStep s
      { s with
        journal := recordTrade s.journal t now
        recorded := s.recorded ++ [⟨t, now⟩] }
  | flush (s : Observed) : ObservedStep s
      { s with
        waiting := s.waiting ++ [⟨IJournal.flushTarget s.journal, s.appended, s.recorded⟩] }
  | flushed (s : Observed) (f : Waiting) (hf : f ∈ s.waiting)
      (hdone : IJournal.flushed s.journal f.target = true) :
      ObservedStep s { s with waiting := s.waiting.erase f }
  | requestStop (s : Observed) : ObservedStep s { s with journal := requestStop s.journal }
  | writer (s : Observed) (commits : Bool) (j : PostgresJournal)
      (hj : writerStep commits s.journal = some j) : ObservedStep s
      { s with
        journal := j
        attempts := s.attempts ++ ends s.journal j }

def attemptedEvents (s : Observed) : List JournalEvent := s.attempts.flatMap Attempt.events

def attemptedTrades (s : Observed) : List TradeRow := s.attempts.flatMap Attempt.trades

/-- The events that this journal has put into its table. -/
def committedEvents (s : Observed) : List JournalEvent :=
  (s.attempts.filter Attempt.committed).flatMap Attempt.events

def committedTrades (s : Observed) : List TradeRow :=
  (s.attempts.filter Attempt.committed).flatMap Attempt.trades

/-- The size of the batch that the writer has taken and not counted yet. -/
def held : WriterPc → ℕ
  | .writing events trades => events.length + trades.length
  | .ended batchCount => batchCount
  | _ => 0

/-! ## The notes and the trace -/

def shown (b : Batch Record) : Attempt :=
  ⟨b.records.filterMap Record.event?, b.records.filterMap Record.trade?, b.kept⟩

/-- `db` are the tables that the journal was opened on. -/
structure ObservedInvariant (db : Database) (s : Observed) : Prop where
  journal : JournalInvariant s.journal
  opened : s.journal.trace.opened = db
  appended : (log s.journal).filterMap Record.event? = s.appended
  recorded : (log s.journal).filterMap Record.trade? = s.recorded
  attempts : s.attempts = s.journal.trace.batches.map shown
  waiting : ∀ f ∈ s.waiting, ∃ records, records <+: log s.journal ∧ f.target = records.length ∧
    f.appended = records.filterMap Record.event? ∧ f.recorded = records.filterMap Record.trade?

variable {db : Database} {s s' : Observed}

theorem observed_invariant (db : Database) : ObservedInvariant db (observed db) :=
  ⟨openJournal_invariant db, rfl, rfl, rfl, rfl, nofun⟩

/-- A step of the writer closes the batch that it ends, and no other. -/
theorem batches_writer {j j' : PostgresJournal} {commits : Bool} (h : JournalInvariant j)
    (hs : writerStep commits j = some j') :
    j'.trace.batches.map shown = j.trace.batches.map shown ++ ends j j' := by
  cases writer_cases hs with
  | exit hw => simp [ends, hw]
  | take hw => simp [ends, hw]
  | write events trades hw =>
    have hhand := h.hand
    rw [hw] at hhand
    obtain ⟨rfl, rfl⟩ := Prod.mk.inj hhand
    rw [transaction]
    split
    · simp [ends, hw, commitBatch, shown]
    · simp [ends, hw, dropBatch, shown]
  | count batchCount hw => simp [ends, hw]

theorem observed_step (h : ObservedInvariant db s) (hs : ObservedStep s s') :
    ObservedInvariant db s' := by
  have hgrows : ∀ {j : PostgresJournal}, log s.journal <+: log j →
      ∀ f ∈ s.waiting, ∃ records, records <+: log j ∧ f.target = records.length ∧
        f.appended = records.filterMap Record.event? ∧
        f.recorded = records.filterMap Record.trade? := by
    intro j hlog f hf
    obtain ⟨records, hprefix, hnotes⟩ := h.waiting f hf
    exact ⟨records, hprefix.trans hlog, hnotes⟩
  cases hs with
  | append ev =>
    have hlog := log_append s.journal ev
    refine ⟨append_invariant h.journal ev, h.opened, ?_, ?_, h.attempts,
      hgrows (hlog ▸ List.prefix_append _ _)⟩
    · simp only [hlog, List.filterMap_append, h.appended]
      rfl
    · simp only [hlog, List.filterMap_append, h.recorded]
      exact List.append_nil _
  | recordTrade t now =>
    have hlog := log_recordTrade s.journal t now
    refine ⟨recordTrade_invariant h.journal t now, h.opened, ?_, ?_, h.attempts,
      hgrows (hlog ▸ List.prefix_append _ _)⟩
    · simp only [hlog, List.filterMap_append, h.appended]
      exact List.append_nil _
    · simp only [hlog, List.filterMap_append, h.recorded]
      rfl
  | flush =>
    refine ⟨h.journal, h.opened, h.appended, h.recorded, h.attempts, ?_⟩
    intro f hf
    rcases List.mem_append.mp hf with hf | hf
    · exact h.waiting f hf
    · cases List.mem_singleton.mp hf
      exact ⟨log s.journal, List.prefix_rfl, h.journal.enqueued, h.appended.symm,
        h.recorded.symm⟩
  | flushed f hf hdone =>
    exact ⟨h.journal, h.opened, h.appended, h.recorded, h.attempts,
      fun g hg => h.waiting g (List.mem_of_mem_erase hg)⟩
  | requestStop =>
    exact ⟨requestStop_invariant h.journal, h.opened, h.appended, h.recorded, h.attempts,
      hgrows List.prefix_rfl⟩
  | writer commits j hj =>
    have hf := writer_frame h.journal hj
    refine ⟨writer_invariant h.journal hj, hf.opened.trans h.opened, ?_, ?_, ?_,
      hgrows (hf.log ▸ List.prefix_rfl)⟩
    · rw [hf.log, h.appended]
    · rw [hf.log, h.recorded]
    · rw [batches_writer h.journal hj, ← h.attempts]

theorem reached_invariant (h : Reachable ObservedStep (observed db) s) : ObservedInvariant db s :=
  h.invariant (observed_invariant db) fun _ _ hi _ hs => observed_step hi hs

/-! ## Accounts -/

/-- What counters, queues and tables owe to what was handed over. -/
structure Accounted (db : Database) (s : Observed) : Prop where
  counted : s.journal.enqueued = s.journal.done + held s.journal.writer +
    s.journal.eventQueue.length + s.journal.tradeQueue.length
  events : attemptedEvents s ++ (batchInHand s.journal.writer).1 ++ s.journal.eventQueue = s.appended
  trades : attemptedTrades s ++ (batchInHand s.journal.writer).2 ++ s.journal.tradeQueue = s.recorded
  eventRows : s.journal.db.events = db.events ++ (committedEvents s).map insEvent
  tradeRows : s.journal.db.trades = db.trades ++ (committedTrades s).map insTrade
  eventsOnce : (committedEvents s).Sublist s.appended
  tradesOnce : (committedTrades s).Sublist s.recorded
  eventsWritten : s.journal.eventsWritten = (committedEvents s).length
  tradesWritten : s.journal.tradesWritten = (committedTrades s).length

theorem held_eq (w : WriterPc) :
    held w = uncounted w + ((batchInHand w).1.length + (batchInHand w).2.length) := by
  cases w <;> simp [held, uncounted, batchInHand]

theorem attemptedEvents_eq (h : ObservedInvariant db s) :
    attemptedEvents s = (attempted s.journal.trace.batches).filterMap Record.event? := by
  rw [attemptedEvents, h.attempts, attempted, List.flatMap_map, List.filterMap_flatMap]
  rfl

theorem attemptedTrades_eq (h : ObservedInvariant db s) :
    attemptedTrades s = (attempted s.journal.trace.batches).filterMap Record.trade? := by
  rw [attemptedTrades, h.attempts, attempted, List.flatMap_map, List.filterMap_flatMap]
  rfl

theorem committedEvents_eq (h : ObservedInvariant db s) :
    committedEvents s = (kept s.journal.trace.batches).filterMap Record.event? := by
  rw [committedEvents, h.attempts, kept, List.filter_map, List.flatMap_map, List.filterMap_flatMap]
  rfl

theorem committedTrades_eq (h : ObservedInvariant db s) :
    committedTrades s = (kept s.journal.trace.batches).filterMap Record.trade? := by
  rw [committedTrades, h.attempts, kept, List.filter_map, List.flatMap_map, List.filterMap_flatMap]
  rfl

theorem flatMap_filter_sublist {α β : Type} (p : α → Bool) (f : α → List β) (l : List α) :
    ((l.filter p).flatMap f).Sublist (l.flatMap f) := by
  rw [List.flatMap, List.flatMap]
  exact (List.filter_sublist.map f).flatten

theorem accounted (h : ObservedInvariant db s) : Accounted db s := by
  have hevents : (batchInHand s.journal.writer).1 =
      s.journal.trace.inHand.filterMap Record.event? := congrArg Prod.fst h.journal.hand
  have htrades : (batchInHand s.journal.writer).2 =
      s.journal.trace.inHand.filterMap Record.trade? := congrArg Prod.snd h.journal.hand
  have hlog : log s.journal = attempted s.journal.trace.batches ++ s.journal.trace.inHand ++
      s.journal.trace.queued := rfl
  have hsplit : attemptedEvents s ++ (batchInHand s.journal.writer).1 ++ s.journal.eventQueue =
      s.appended := by
    rw [attemptedEvents_eq h, hevents, h.journal.queues.1, ← h.appended, hlog,
      List.filterMap_append, List.filterMap_append]
  have hsplit' : attemptedTrades s ++ (batchInHand s.journal.writer).2 ++ s.journal.tradeQueue =
      s.recorded := by
    rw [attemptedTrades_eq h, htrades, h.journal.queues.2, ← h.recorded, hlog,
      List.filterMap_append, List.filterMap_append]
  constructor
  · have hcount := h.journal.enqueued
    have hdone := h.journal.done
    have hqueued := length_kinds s.journal.trace.queued
    have hinHand := length_kinds s.journal.trace.inHand
    rw [← h.journal.queues.1, ← h.journal.queues.2] at hqueued
    rw [← hevents, ← htrades] at hinHand
    rw [hlog, List.length_append, List.length_append] at hcount
    rw [held_eq]
    omega
  · exact hsplit
  · exact hsplit'
  · rw [committedEvents_eq h, h.journal.events, h.opened]
  · rw [committedTrades_eq h, h.journal.trades, h.opened]
  · rw [← hsplit, List.append_assoc]
    exact (flatMap_filter_sublist _ _ _).trans (List.sublist_append_left _ _)
  · rw [← hsplit', List.append_assoc]
    exact (flatMap_filter_sublist _ _ _).trans (List.sublist_append_left _ _)
  · rw [committedEvents_eq h, h.journal.eventsWritten]
  · rw [committedTrades_eq h, h.journal.tradesWritten]

/-- What a waiting `flush()` found is attempted when it returns, unless for a shutdown. -/
theorem attempted_of_flushed (h : ObservedInvariant db s) {f : Waiting} (hf : f ∈ s.waiting)
    (hflushed : IJournal.flushed s.journal f.target = true) (hstop : s.journal.stopping = false) :
    f.appended <+: attemptedEvents s ∧ f.recorded <+: attemptedTrades s := by
  obtain ⟨records, hprefix, htarget, happended, hrecorded⟩ := h.waiting f hf
  have hdone : f.target ≤ s.journal.done := by simpa [IJournal.flushed, hstop] using hflushed
  have hlength : records.length ≤ (attempted s.journal.trace.batches).length := by
    rw [← h.journal.done]
    omega
  have hattempted : records <+: attempted s.journal.trace.batches := by
    rw [log, List.append_assoc] at hprefix
    exact List.prefix_of_prefix_length_le hprefix (List.prefix_append _ _) hlength
  rw [attemptedEvents_eq h, attemptedTrades_eq h, happended, hrecorded]
  exact ⟨hattempted.filterMap _, hattempted.filterMap _⟩

/-- The writer leaves its loop at a shutdown and with nothing to do. -/
theorem exit_empty {j j' : PostgresJournal} {commits : Bool} (hs : writerStep commits j = some j')
    (hexit : j'.writer = .exited) :
    j'.stopping = true ∧ j'.eventQueue = [] ∧ j'.tradeQueue = [] ∧ j.writer = .waiting ∧
      j.eventQueue = [] ∧ j.tradeQueue = [] := by
  cases writer_cases hs with
  | exit hw he ht hstop => exact ⟨hstop, he, ht, hw, he, ht⟩
  | take => cases hexit
  | write events trades =>
    rw [transaction] at hexit
    split at hexit <;> cases hexit
  | count => cases hexit

/-- Exactly-once accounting, in every state that callers, destructor and writer can reach. -/
theorem writer_accounts (db : Database) (s : Observed)
    (h : Reachable ObservedStep (observed db) s) :
    Accounted db s ∧
    (∀ f ∈ s.waiting, IJournal.flushed s.journal f.target = true → s.journal.stopping = false →
      f.appended <+: attemptedEvents s ∧ f.recorded <+: attemptedTrades s) ∧
    ∀ commits j, writerStep commits s.journal = some j → j.writer = .exited →
      j.stopping = true ∧ j.eventQueue = [] ∧ j.tradeQueue = [] ∧
        attemptedEvents s = s.appended ∧ attemptedTrades s = s.recorded := by
  have hi := reached_invariant h
  have ha := accounted hi
  refine ⟨ha, fun f hf => attempted_of_flushed hi hf, ?_⟩
  intro commits j hj hexit
  obtain ⟨hstop, hevents', htrades', hw, hevents, htrades⟩ := exit_empty hj hexit
  have hsplit := ha.events
  have hsplit' := ha.trades
  rw [hw, hevents] at hsplit
  rw [hw, htrades] at hsplit'
  exact ⟨hstop, hevents', htrades', by simpa [batchInHand] using hsplit,
    by simpa [batchInHand] using hsplit'⟩

/-- A batch is dropped, a `flush()` waits for it and returns. -/
theorem writer_accounts_dropped : ∃ s, Reachable ObservedStep (observed ⟨[], []⟩) s ∧
    s.journal.done = 1 ∧ s.journal.eventsWritten = 0 ∧ Accounted ⟨[], []⟩ s ∧
    ∀ f ∈ s.waiting, f.appended <+: attemptedEvents s := by
  have happend : Reachable ObservedStep (observed ⟨[], []⟩) _ :=
    .next .initial trivial (.append _ (makeCancelEvent 7 1 0))
  have hflush : Reachable ObservedStep (observed ⟨[], []⟩) _ := .next happend trivial (.flush _)
  have htake : Reachable ObservedStep (observed ⟨[], []⟩) _ :=
    .next hflush trivial (.writer _ false _ rfl)
  have hdrop : Reachable ObservedStep (observed ⟨[], []⟩) _ :=
    .next htake trivial (.writer _ false _ rfl)
  have hcount : Reachable ObservedStep (observed ⟨[], []⟩) _ :=
    .next hdrop trivial (.writer _ false _ rfl)
  obtain ⟨haccounted, hflushed, _⟩ := writer_accounts _ _ hcount
  refine ⟨_, hcount, rfl, rfl, haccounted, ?_⟩
  intro f hf
  cases List.mem_singleton.mp hf
  exact (hflushed _ hf rfl rfl).1

end WriterAccounting
