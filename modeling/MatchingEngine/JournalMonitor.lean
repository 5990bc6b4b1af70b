import MatchingEngine.DatabaseJournal
import MatchingEngine.MonitorWakeups

/-! # The database journal under its mutex

`append`, `recordTrade`, `flush`, the destructor and `writerLoop` statement by statement, with
both condition variables, against the journal of `DatabaseJournal`, where each section is one
step. -/
namespace JournalMonitor

open EngineTypes
open Orders
open Journal
open BatchLog
open DatabaseJournal
open Monitor
open Monitor.Signals
open Transitions

/-! ## The code -/

inductive Cv where
  | workCv
  | flushedCv
  deriving DecidableEq

/-- `writer` and `trace` of the journal are read by no statement; `finished` tells that the
writer thread is over. -/
structure Shared where
  journal : PostgresJournal
  finished : Bool

/-- The statement a thread is at, with its local variables. -/
inductive Pc where
  | idle
  | appendLock (ev : JournalEvent)
  | appendPush (ev : JournalEvent)
  | appendCount (ev : JournalEvent)
  | recordLock (t : Trade) (now : Int64)
  | recordPush (t : Trade) (now : Int64)
  | recordCount (t : Trade) (now : Int64)
  | handedUnlock
  | handedNotify
  | flushLock
  | flushTarget
  | flushNotify (target : ℕ)
  | flushWait (target : ℕ)
  | flushUnlock (target : ℕ)
  | stopLock
  | stopSet
  | stopUnlock
  | stopNotify
  | join
  | workLock
  | workWait
  | workTest
  | swapEvents
  | swapTrades (events : List JournalEvent)
  | swapUnlock (events : List JournalEvent) (trades : List TradeRow)
  | commit (events : List JournalEvent) (trades : List TradeRow)
  | doneLock (batchCount : ℕ)
  | doneAdd (batchCount : ℕ)
  | doneUnlock
  | doneNotify
  | exitUnlock
  | exit
  | exited

/-- Where a call on the journal begins. -/
def Pc.entry : Pc → Prop
  | .appendLock _ | .recordLock _ _ | .flushLock | .stopLock => True
  | _ => False

def hasWork (j : PostgresJournal) : Bool := !j.eventQueue.isEmpty || !j.tradeQueue.isEmpty

def pushEvent (j : PostgresJournal) (ev : JournalEvent) : PostgresJournal :=
  { j with
    eventQueue := j.eventQueue ++ [ev]
    trace := { j.trace with queued := j.trace.queued ++ [.event ev] } }

def pushTrade (j : PostgresJournal) (t : Trade) (now : Int64) : PostgresJournal :=
  { j with
    tradeQueue := j.tradeQueue ++ [⟨t, now⟩]
    trace := { j.trace with queued := j.trace.queued ++ [.trade ⟨t, now⟩] } }

def countOne (j : PostgresJournal) : PostgresJournal := { j with enqueued := j.enqueued + 1 }

def takeTrades (j : PostgresJournal) (events : List JournalEvent) : PostgresJournal :=
  { j with
    tradeQueue := []
    writer := .writing events j.tradeQueue
    trace := { j.trace with
      inHand := j.trace.queued
      queued := [] } }

def code : Pc → Instr Pc Shared Cv
  | .idle => .idle Pc.entry
  | .appendLock ev => .lock (.appendPush ev)
  | .appendPush ev => .access fun s => ({ s with journal := pushEvent s.journal ev }, .appendCount ev)
  | .appendCount _ => .access fun s => ({ s with journal := countOne s.journal }, .handedUnlock)
  | .recordLock t now => .lock (.recordPush t now)
  | .recordPush t now =>
    .access fun s => ({ s with journal := pushTrade s.journal t now }, .recordCount t now)
  | .recordCount _ _ => .access fun s => ({ s with journal := countOne s.journal }, .handedUnlock)
  | .handedUnlock => .unlock .handedNotify
  | .handedNotify => .notifyOne .workCv .idle
  | .flushLock => .lock .flushTarget
  | .flushTarget => .access fun s => (s, .flushNotify s.journal.enqueued)
  | .flushNotify target => .notifyOne .workCv (.flushWait target)
  | .flushWait target =>
    .wait .flushedCv (fun s => decide (target ≤ s.journal.done) || s.journal.stopping)
      (.flushUnlock target)
  | .flushUnlock _ => .unlock .idle
  | .stopLock => .lock .stopSet
  | .stopSet => .access fun s => ({ s with journal := requestStop s.journal }, .stopUnlock)
  | .stopUnlock => .unlock .stopNotify
  | .stopNotify => .notifyAll .workCv .join
  | .join => .act fun s s' k => s.finished = true ∧ s' = s ∧ k = .idle
  | .workLock => .lock .workWait
  | .workWait => .wait .workCv (fun s => hasWork s.journal || s.journal.stopping) .workTest
  | .workTest =>
    .access fun s =>
      if s.journal.stopping && !hasWork s.journal then
        ({ s with journal := { s.journal with writer := .exited } }, .exitUnlock)
      else (s, .swapEvents)
  | .swapEvents =>
    .access fun s =>
      ({ s with journal := { s.journal with eventQueue := [] } }, .swapTrades s.journal.eventQueue)
  | .swapTrades events =>
    .access fun s =>
      ({ s with journal := takeTrades s.journal events }, .swapUnlock events s.journal.tradeQueue)
  | .swapUnlock events trades => .unlock (.commit events trades)
  | .commit events trades =>
    .act fun s s' k =>
      ∃ commits, s' = { s with journal := transaction commits s.journal events trades } ∧
        k = .doneLock (events.length + trades.length)
  | .doneLock batchCount => .lock (.doneAdd batchCount)
  | .doneAdd batchCount =>
    .access fun s =>
      ({ s with
          journal := { s.journal with done := s.journal.done + batchCount, writer := .waiting } },
        .doneUnlock)
  | .doneUnlock => .unlock .doneNotify
  | .doneNotify => .notifyAll .flushedCv .workLock
  | .exitUnlock => .unlock .exit
  | .exit => .act fun s s' k => s' = { s with finished := true } ∧ k = .exited
  | .exited => .idle fun _ => False

variable {ι : Type}

/-- The journal as the constructor leaves it: `w` is the writer thread, the others are callers. -/
def opened [DecidableEq ι] (w : ι) (db : Database) : State ι Pc Shared Cv :=
  start ⟨openJournal db, false⟩ fun i => if i = w then .workLock else .idle

/-! ## Sections as steps -/

/-- What a section of a caller or a step of the writer makes of the journal. -/
inductive JournalStep : PostgresJournal → PostgresJournal → Prop
  | append (j : PostgresJournal) (ev : JournalEvent) : JournalStep j (append j ev)
  | recordTrade (j : PostgresJournal) (t : Trade) (now : Int64) :
      JournalStep j (recordTrade j t now)
  | requestStop (j : PostgresJournal) : JournalStep j (requestStop j)
  | writer (commits : Bool) {j j' : PostgresJournal} (h : writerStep commits j = some j') :
      JournalStep j j'

abbrev Reached (db : Database) (j : PostgresJournal) : Prop :=
  Reachable JournalStep (openJournal db) j

variable {db : Database} {j j' : PostgresJournal}

theorem Reached.step (h : Reached db j) (hs : JournalStep j j') : Reached db j' :=
  ReachedBy.next h trivial hs

theorem reached_invariant (h : Reached db j) : JournalInvariant j := by
  refine h.invariant (openJournal_invariant db) fun j j' hi _ hs => ?_
  cases hs with
  | append _ ev => exact append_invariant hi ev
  | recordTrade _ t now => exact recordTrade_invariant hi t now
  | requestStop => exact requestStop_invariant hi
  | writer _ h => exact writer_invariant hi h

/-- The writer goes only when it was told to stop, and nothing is undone of that. -/
theorem reached_exited (h : Reached db j) : j.writer = .exited → j.stopping = true := by
  refine h.invariant (I := fun j => j.writer = .exited → j.stopping = true) (by simp [openJournal])
    fun j j' hi _ hs => ?_
  cases hs with
  | append _ ev => exact hi
  | recordTrade _ t now => exact hi
  | requestStop => exact fun _ => rfl
  | writer commits h =>
    cases writer_cases h with
    | exit _ _ _ hstop => exact fun _ => hstop
    | take hw => simp
    | write events trades hw =>
      rw [transaction]
      split <;> simp [commitBatch, dropBatch]
    | count batchCount hw => simp

/-- A writer at its wait with nothing to take has counted everything. -/
theorem counted (h : Reached db j) (hw : j.writer = .waiting) (hwork : hasWork j = false) :
    j.done = j.enqueued := by
  have hi := reached_invariant h
  have hlen := length_kinds j.trace.queued
  simp only [hasWork, Bool.or_eq_false_iff, Bool.not_eq_false', List.isEmpty_iff] at hwork
  rw [← hi.queues.1, ← hi.queues.2, hwork.1, hwork.2] at hlen
  have hqueued : j.trace.queued = [] := List.eq_nil_of_length_eq_zero hlen.symm
  have hdone := hi.done
  rw [hw] at hdone
  rw [hi.enqueued, log, waiting_hand hi hw, hqueued, List.append_nil, List.append_nil, ← hdone]
  rfl

/-! ## The outline -/

def Pc.holds : Pc → Bool
  | .appendPush _ | .appendCount _ | .recordPush _ _ | .recordCount _ _ | .handedUnlock
  | .flushTarget | .flushNotify _ | .flushWait _ | .flushUnlock _ | .stopSet | .stopUnlock
  | .workWait | .workTest | .swapEvents | .swapTrades _ | .swapUnlock _ _ | .doneAdd _
  | .doneUnlock | .exitUnlock => true
  | _ => false

/-- What the journal's trace says of the writer when the writer thread is at a place of
`writerLoop`. -/
def Pc.writer? : Pc → Option WriterPc
  | .workLock | .workWait | .workTest | .swapEvents | .swapTrades _ | .doneUnlock | .doneNotify =>
    some .waiting
  | .swapUnlock events trades | .commit events trades => some (.writing events trades)
  | .doneLock batchCount | .doneAdd batchCount => some (.ended batchCount)
  | .exitUnlock | .exit | .exited => some .exited
  | _ => none

/-- Thread `w`, and no other, is in `writerLoop`. -/
def Role (w i : ι) (f : Pc) (s : Shared) : Prop :=
  match f.writer? with
  | some pc => i = w ∧ s.journal.writer = pc
  | none => i ≠ w

/-- A `flush()` can rely on its target: the writer does not go before it is reached. -/
def Pending (target : ℕ) (j : PostgresJournal) : Prop :=
  target ≤ j.enqueued ∧ (j.writer = .exited → target ≤ j.done)

/-- What a thread knows without the mutex. -/
def Pc.knows (s : Shared) : Pc → Prop
  | .flushWait target => Pending target s.journal
  | .stopNotify | .join => s.journal.stopping = true
  | .exited => s.finished = true
  | _ => True

/-- What a thread knows with the mutex; inside a section the journal is between two steps. -/
def Section (db : Database) (s : Shared) : Pc → Prop
  | .appendCount ev => ∃ j, Reached db j ∧ s.journal = pushEvent j ev
  | .recordCount t now => ∃ j, Reached db j ∧ s.journal = pushTrade j t now
  | .flushNotify target | .flushWait target => Reached db s.journal ∧ target ≤ s.journal.enqueued
  | .flushUnlock target =>
    Reached db s.journal ∧ (target ≤ s.journal.done ∨ s.journal.stopping = true)
  | .stopUnlock => Reached db s.journal ∧ s.journal.stopping = true
  | .workTest => Reached db s.journal ∧ (hasWork s.journal || s.journal.stopping) = true
  | .swapEvents => Reached db s.journal ∧ hasWork s.journal = true
  | .swapTrades events =>
    ∃ j, Reached db j ∧ hasWork j = true ∧ j.eventQueue = events ∧
      s.journal = { j with eventQueue := [] }
  | _ => Reached db s.journal

def outline (w : ι) (db : Database) : Outline ι Pc Shared where
  holds := Pc.holds
  free s := Reached db s.journal
  held i f s := Role w i f s ∧ Section db s f
  away i f s := Role w i f s ∧ f.knows s

variable {w i : ι} {s s' : Shared}

/-- What keeps the assertions of the threads that do not have the mutex. -/
theorem away_keeps {i : ι} {f : Pc} (hrole : i = w → s'.journal.writer = s.journal.writer)
    (hpending : ∀ target, Pending target s.journal → Pending target s'.journal)
    (hstop : s.journal.stopping = true → s'.journal.stopping = true)
    (hfin : s.finished = true → s'.finished = true) (h : Role w i f s ∧ f.knows s) :
    Role w i f s' ∧ f.knows s' := by
  refine ⟨?_, ?_⟩
  · have hr := h.1
    unfold Role at hr ⊢
    cases hw : f.writer? with
    | none => simpa [hw] using hr
    | some pc =>
      simp only [hw] at hr ⊢
      exact ⟨hr.1, (hrole hr.1).trans hr.2⟩
  · have hk := h.2
    cases f <;> simp only [Pc.knows] at hk ⊢
    case flushWait target => exact hpending target hk
    case stopNotify => exact hstop hk
    case join => exact hstop hk
    case exited => exact hfin hk

/-- A caller's statement. -/
theorem away_caller {j : ι} {f : Pc}
    (hw : s'.journal.writer = s.journal.writer) (hdone : s'.journal.done = s.journal.done)
    (henq : s.journal.enqueued ≤ s'.journal.enqueued)
    (hstop : s.journal.stopping = true → s'.journal.stopping = true)
    (hfin : s'.finished = s.finished) (h : Role w j f s ∧ f.knows s) :
    Role w j f s' ∧ f.knows s' := by
  refine away_keeps (fun _ => hw) (fun target ⟨hle, hex⟩ => ⟨hle.trans henq, ?_⟩) hstop
    (fun hf => hfin.trans hf) h
  rw [hw, hdone]
  exact hex

/-! ## The transaction and the callers -/

section Transaction

variable (commits : Bool) (j : PostgresJournal) (events : List JournalEvent)
  (trades : List TradeRow)

variable {commits j events trades} in
theorem transaction_commits
    (h : commits = true ∧ ((j.db.events ++ events.map insEvent).map EventsRow.seq).Nodup) :
    transaction commits j events trades = commitBatch j events trades :=
  if_pos h

variable {commits j events trades} in
theorem transaction_drops
    (h : ¬ (commits = true ∧ ((j.db.events ++ events.map insEvent).map EventsRow.seq).Nodup)) :
    transaction commits j events trades = dropBatch j events trades :=
  if_neg h

theorem transaction_pushEvent (ev : JournalEvent) :
    transaction commits (pushEvent j ev) events trades =
      pushEvent (transaction commits j events trades) ev := by
  by_cases h : commits = true ∧ ((j.db.events ++ events.map insEvent).map EventsRow.seq).Nodup
  · rw [transaction_commits h, transaction_commits (by exact h)]
    rfl
  · rw [transaction_drops h, transaction_drops (by exact h)]
    rfl

theorem transaction_pushTrade (t : Trade) (now : Int64) :
    transaction commits (pushTrade j t now) events trades =
      pushTrade (transaction commits j events trades) t now := by
  by_cases h : commits = true ∧ ((j.db.events ++ events.map insEvent).map EventsRow.seq).Nodup
  · rw [transaction_commits h, transaction_commits (by exact h)]
    rfl
  · rw [transaction_drops h, transaction_drops (by exact h)]
    rfl

end Transaction

/-- A transaction in the middle of a caller's section is one between two sections. -/
theorem section_transaction {f : Pc} {events : List JournalEvent} {trades : List TradeRow}
    (commits : Bool) (hf : f.writer? = none) (hw : s.journal.writer = .writing events trades)
    (h : Section db s f) :
    Section db { s with journal := transaction commits s.journal events trades } f := by
  have hstep : ∀ j, Reached db j → j.writer = .writing events trades →
      Reached db (transaction commits j events trades) := by
    intro j hj hjw
    refine hj.step (.writer commits ?_)
    simp [writerStep, hjw]
  cases f <;> simp only [Pc.writer?, reduceCtorEq] at hf
  case appendCount ev =>
    obtain ⟨j, hj, hs⟩ := h
    have hjw : j.writer = .writing events trades := by rw [← hw, hs]; rfl
    exact ⟨_, hstep j hj hjw, hs ▸ transaction_pushEvent commits j events trades ev⟩
  case recordCount t now =>
    obtain ⟨j, hj, hs⟩ := h
    have hjw : j.writer = .writing events trades := by rw [← hw, hs]; rfl
    exact ⟨_, hstep j hj hjw, hs ▸ transaction_pushTrade commits j events trades t now⟩
  case flushNotify target => exact ⟨hstep _ h.1 hw, by simpa using h.2⟩
  case flushWait target => exact ⟨hstep _ h.1 hw, by simpa using h.2⟩
  case flushUnlock target => exact ⟨hstep _ h.1 hw, by simpa using h.2⟩
  case stopUnlock => exact ⟨hstep _ h.1 hw, by simpa using h.2⟩
  all_goals exact hstep _ h hw

theorem role_caller {f k : Pc} (hf : f.writer? = none) (hk : k.writer? = none)
    (h : Role w i f s) : Role w i k s' := by
  simp only [Role, hf, hk] at h ⊢
  exact h

theorem role_writer {f : Pc} {pc : WriterPc} (hf : f.writer? = some pc) (h : Role w i f s) :
    i = w ∧ s.journal.writer = pc := by
  simpa only [Role, hf] using h

/-- What the writer does under the mutex spoils nothing for the others. -/
theorem away_writer {j : ι} {f : Pc} (hj : j ≠ w)
    (hpending : ∀ target, Pending target s.journal → Pending target s'.journal)
    (hstop : s.journal.stopping = s'.journal.stopping) (hfin : s'.finished = s.finished)
    (h : Role w j f s ∧ f.knows s) : Role w j f s' ∧ f.knows s' :=
  away_keeps (fun he => absurd he hj) hpending (fun hs => hstop ▸ hs) (fun hf => hfin.trans hf) h

theorem pending_exit (hj : Reached db j) (hw : j.writer = .waiting) (hwork : hasWork j = false)
    {target : ℕ} (h : Pending target j) : Pending target { j with writer := .exited } :=
  ⟨h.1, fun _ => h.1.trans (counted hj hw hwork).ge⟩

/-- A step of the writer, taken in one section. -/
theorem reached_exit (hj : Reached db j) (hw : j.writer = .waiting) (hwork : hasWork j = false)
    (hstop : j.stopping = true) : Reached db { j with writer := .exited } := by
  simp only [hasWork, Bool.or_eq_false_iff, Bool.not_eq_false'] at hwork
  refine hj.step (.writer true ?_)
  simp [writerStep, hw, hwork, hstop]

theorem reached_take (hj : Reached db j) (hw : j.writer = .waiting) (hwork : hasWork j = true) :
    Reached db (takeTrades { j with eventQueue := [] } j.eventQueue) := by
  have hnot : ¬ (j.eventQueue.isEmpty && j.tradeQueue.isEmpty) = true := by
    simpa [hasWork, Classical.or_iff_not_imp_left] using hwork
  refine hj.step (.writer true ?_)
  simp [writerStep, hw, hnot, takeTrades]

theorem reached_count {batchCount : ℕ} (hj : Reached db j) (hw : j.writer = .ended batchCount) :
    Reached db { j with done := j.done + batchCount, writer := .waiting } := by
  refine hj.step (.writer true ?_)
  simp [writerStep, hw]

theorem verified (w : ι) (db : Database) (i : ι) (f : Pc) :
    (outline w db).Verified i f (code f) := by
  cases f with
  | idle =>
    refine ⟨rfl, fun k s hk h => ?_⟩
    cases k <;> first | exact absurd hk id | exact ⟨rfl, h.1, trivial⟩
  | appendLock ev => exact ⟨rfl, rfl, fun s hfree h => ⟨h.1, hfree⟩⟩
  | appendPush ev =>
    refine ⟨rfl, fun s h => ⟨rfl, ⟨h.1, ⟨s.journal, h.2, rfl⟩⟩, ?_⟩⟩
    exact fun j _ m h => away_caller (s := s) rfl rfl le_rfl id rfl h
  | appendCount ev =>
    refine ⟨rfl, fun s h => ⟨rfl, ⟨h.1, ?_⟩, ?_⟩⟩
    · obtain ⟨_, j, hj, hs⟩ := h
      show Reached db (countOne s.journal)
      rw [hs]
      exact hj.step (.append j ev)
    · exact fun j _ m h => away_caller (s := s) rfl rfl (Nat.le_succ _) id rfl h
  | recordLock t now => exact ⟨rfl, rfl, fun s hfree h => ⟨h.1, hfree⟩⟩
  | recordPush t now =>
    refine ⟨rfl, fun s h => ⟨rfl, ⟨h.1, ⟨s.journal, h.2, rfl⟩⟩, ?_⟩⟩
    exact fun j _ m h => away_caller (s := s) rfl rfl le_rfl id rfl h
  | recordCount t now =>
    refine ⟨rfl, fun s h => ⟨rfl, ⟨h.1, ?_⟩, ?_⟩⟩
    · obtain ⟨_, j, hj, hs⟩ := h
      show Reached db (countOne s.journal)
      rw [hs]
      exact hj.step (.recordTrade j t now)
    · exact fun j _ m h => away_caller (s := s) rfl rfl (Nat.le_succ _) id rfl h
  | handedUnlock => exact ⟨rfl, rfl, fun s h => ⟨h.2, h.1, trivial⟩⟩
  | handedNotify => exact ⟨rfl, fun s => ⟨fun _ h => h, fun _ h => ⟨h.1, trivial⟩⟩⟩
  | flushLock => exact ⟨rfl, rfl, fun s hfree h => ⟨h.1, hfree⟩⟩
  | flushTarget =>
    exact ⟨rfl, fun s h => ⟨rfl, ⟨h.1, h.2, le_rfl⟩, fun j _ m h => h⟩⟩
  | flushNotify target =>
    exact ⟨rfl, fun s => ⟨fun _ h => h, fun hh => absurd hh (by simp [outline, Pc.holds])⟩⟩
  | flushWait target =>
    refine ⟨rfl, rfl, fun s hfree h => ⟨h.1, hfree, h.2.1⟩, ?_⟩
    rintro s ⟨hrole, hj, hle⟩
    constructor
    · intro hp
      exact ⟨hrole, hj, by simpa using hp⟩
    · intro hp
      simp only [Bool.or_eq_false_iff] at hp
      refine ⟨hj, hrole, hle, fun hex => ?_⟩
      simp [reached_exited hj hex] at hp
  | flushUnlock target => exact ⟨rfl, rfl, fun s h => ⟨h.2.1, h.1, trivial⟩⟩
  | stopLock => exact ⟨rfl, rfl, fun s hfree h => ⟨h.1, hfree⟩⟩
  | stopSet =>
    refine ⟨rfl, fun s h => ⟨rfl, ⟨h.1, Reached.step h.2 (.requestStop _), rfl⟩, ?_⟩⟩
    exact fun j _ m h => away_caller (s := s) rfl rfl le_rfl (fun _ => rfl) rfl h
  | stopUnlock => exact ⟨rfl, rfl, fun s h => ⟨h.2.1, h.1, h.2.2⟩⟩
  | stopNotify => exact ⟨rfl, fun s => ⟨fun _ h => h, fun _ h => h⟩⟩
  | join =>
    refine ⟨rfl, ?_⟩
    rintro s s' k ⟨_, rfl, rfl⟩ h
    exact ⟨rfl, ⟨h.1, trivial⟩, fun hfree => hfree, fun j _ m => ⟨fun h => h, fun h => h⟩⟩
  | workLock => exact ⟨rfl, rfl, fun s hfree h => ⟨h.1, hfree⟩⟩
  | workWait =>
    refine ⟨rfl, rfl, fun s hfree h => ⟨h.1, hfree⟩, fun s h => ⟨?_, ?_⟩⟩
    · exact fun hp => ⟨h.1, h.2, hp⟩
    · exact fun _ => ⟨h.2, h.1, trivial⟩
  | workTest =>
    refine ⟨rfl, ?_⟩
    rintro s ⟨hrole, hj, hready⟩
    obtain ⟨hi, hw⟩ := role_writer rfl hrole
    by_cases hgo : (s.journal.stopping && !hasWork s.journal) = true
    · simp only [hgo, if_true]
      simp only [Bool.and_eq_true, Bool.not_eq_true'] at hgo
      refine ⟨rfl, ⟨⟨hi, rfl⟩, reached_exit hj hw hgo.2 hgo.1⟩, fun j hne m h => ?_⟩
      subst hi
      exact away_writer (s := s) hne (fun target => pending_exit hj hw hgo.2) rfl rfl h
    · have hwork : hasWork s.journal = true := by
        cases hwork : hasWork s.journal
        · simp_all
        · rfl
      simp only [hgo]
      exact ⟨rfl, ⟨hrole, hj, hwork⟩, fun j _ m h => h⟩
  | swapEvents =>
    refine ⟨rfl, fun s h => ⟨rfl, ⟨h.1, s.journal, h.2.1, h.2.2, rfl, rfl⟩, ?_⟩⟩
    exact fun j _ m h => away_caller (s := s) rfl rfl le_rfl id rfl h
  | swapTrades events =>
    refine ⟨rfl, ?_⟩
    rintro ⟨journal, finished⟩ ⟨hrole, j, hj, hwork, rfl, hs⟩
    obtain ⟨hi, hw⟩ := role_writer rfl hrole
    subst hs hi
    refine ⟨rfl, ⟨⟨rfl, rfl⟩, reached_take hj hw hwork⟩, fun j' hne m h => ?_⟩
    exact away_writer (s := ⟨{ j with eventQueue := [] }, finished⟩) hne
      (fun target h => ⟨h.1, by simp [takeTrades]⟩) rfl rfl h
  | swapUnlock events trades => exact ⟨rfl, rfl, fun s h => ⟨h.2, h.1, trivial⟩⟩
  | commit events trades =>
    refine ⟨rfl, ?_⟩
    rintro s s' k ⟨commits, rfl, rfl⟩ h
    obtain ⟨hi, hw⟩ := role_writer rfl h.1
    refine ⟨rfl, ⟨⟨hi, by simp⟩, trivial⟩, fun hfree => ?_, fun j hne m => ⟨fun hj => ?_, fun hj => ?_⟩⟩
    · exact Reached.step hfree (.writer commits (by simp [writerStep, hw]))
    · subst hi
      cases hm : m.writer? with
      | some pc => exact absurd (role_writer hm hj.1).1 hne
      | none => exact ⟨role_caller hm hm hj.1, section_transaction commits hm hw hj.2⟩
    · subst hi
      exact away_writer (s := s) hne (fun target h => ⟨by simpa using h.1, by simp⟩) (by simp) rfl
        hj
  | doneLock batchCount => exact ⟨rfl, rfl, fun s hfree h => ⟨h.1, hfree⟩⟩
  | doneAdd batchCount =>
    refine ⟨rfl, fun s hheld => ?_⟩
    obtain ⟨hi, hw⟩ := role_writer rfl hheld.1
    refine ⟨rfl, ⟨⟨hi, rfl⟩, reached_count hheld.2 hw⟩, fun j hne m h => ?_⟩
    subst hi
    exact away_writer (s := s) hne (fun target h => ⟨h.1, by simp⟩) rfl rfl h
  | doneUnlock => exact ⟨rfl, rfl, fun s h => ⟨h.2, h.1, trivial⟩⟩
  | doneNotify => exact ⟨rfl, fun s => ⟨fun _ h => h, fun _ h => h⟩⟩
  | exitUnlock => exact ⟨rfl, rfl, fun s h => ⟨h.2, h.1, trivial⟩⟩
  | exit =>
    refine ⟨rfl, ?_⟩
    rintro s s' k ⟨rfl, rfl⟩ h
    refine ⟨rfl, ⟨h.1, rfl⟩, fun hfree => hfree, fun j _ m => ⟨fun h => ?_, fun h => ?_⟩⟩
    · exact h
    · exact away_keeps (s := s) (fun _ => rfl) (fun _ h => h) id (fun _ => rfl) h
  | exited => exact ⟨rfl, fun k s hk => absurd hk id⟩

abbrev Threads (ι : Type) : Type := State ι Pc Shared Cv

theorem opened_free (w : ι) (db : Database) : (outline w db).free ⟨openJournal db, false⟩ :=
  ReachedBy.initial

theorem opened_outline [DecidableEq ι] (w : ι) (db : Database) (i : ι) :
    (outline w db).holds (if i = w then .workLock else .idle) = false ∧
      (outline w db).away i (if i = w then .workLock else .idle) ⟨openJournal db, false⟩ := by
  by_cases hi : i = w
  · simp only [hi, if_true]
    exact ⟨rfl, ⟨rfl, rfl⟩, trivial⟩
  · simp only [hi, if_false]
    exact ⟨rfl, hi, trivial⟩

theorem reachable_outline [DecidableEq ι] {s : Threads ι}
    (h : Reachable (Step fun _ => code) (opened w db) s) :
    (outline w db).Sound (fun _ => code) s :=
  Outline.reachable_sound (verified w db) (opened_free w db) (opened_outline w db) h

/-- A `flush()` that has woken the writer and passed its own wait. -/
def flushing : Threads Bool where
  shared := ⟨openJournal ⟨[], []⟩, false⟩
  holder := some false
  thread i := cond i ⟨.workWait, .woken⟩ ⟨.flushUnlock 0, .running⟩

theorem flushing_reachable : Reachable (Step fun _ => code) (opened true ⟨[], []⟩) flushing := by
  have h₀ : Reachable (Step fun _ => code) (opened true ⟨[], []⟩) (opened true ⟨[], []⟩) := .initial
  have h₁ := h₀.next trivial (.quiet (.lock (i := true) rfl rfl rfl))
  have h₂ := h₁.next trivial (.quiet (.park (i := true) rfl rfl rfl))
  have h₃ := h₂.next trivial (.call (i := false) (k := .flushLock) rfl rfl (by exact trivial))
  have h₄ := h₃.next trivial (.quiet (.lock (i := false) rfl rfl rfl))
  have h₅ := h₄.next trivial (.quiet (.access (i := false) rfl rfl))
  have h₆ := h₅.next trivial (.quiet (.wakeOne (i := false) (u := true) rfl rfl rfl))
  have h₇ := h₆.next trivial (.quiet (.pass (i := false) rfl rfl rfl))
  convert h₇ using 1
  refine congrArg (State.mk _ _) ?_
  funext i
  cases i <;> rfl

/-- Who waits, and on which condition variable. -/
theorem wait_cases {f k : Pc} {c : Cv} {p : Shared → Bool} (h : code f = .wait c p k) :
    (f = .workWait ∧ c = .workCv) ∨ ∃ target, f = .flushWait target ∧ c = .flushedCv := by
  cases f <;> simp only [code, Instr.wait.injEq, reduceCtorEq] at h
  case flushWait target => exact .inr ⟨target, rfl, h.1.symm⟩
  case workWait => exact .inl ⟨rfl, h.1.symm⟩

def Pc.owesWork : Pc → ℕ∞
  | .appendCount _ | .recordCount _ _ | .handedUnlock | .handedNotify | .stopUnlock
  | .stopNotify => 1
  | f => if f.writer? = none then 0 else 1

/-- Only the writer waits on `workCv_`, so one notification is enough; the writer itself answers
for the work while it is awake. -/
def workSignals : Signals Pc Shared :=
  .single (fun s => hasWork s.journal || s.journal.stopping) Pc.owesWork

def Pc.owesFlushed : Pc → ℕ∞
  | .doneUnlock | .doneNotify => ⊤
  | _ => 0

/-- `done_` moves only before a broadcast on `flushedCv_`. -/
def flushedSignals : Signals Pc Shared where
  due f s :=
    match f with
    | .flushWait target => target ≤ s.journal.done
    | _ => False
  cap _ := ⊤
  owes f := f.owesFlushed

/-- Work that was taken, or not touched, makes nothing ready. -/
theorem ready_mono (s s' : Shared) (hwork : hasWork s'.journal = true → hasWork s.journal = true)
    (hstop : s'.journal.stopping = s.journal.stopping)
    (h : (hasWork s'.journal || s'.journal.stopping) = true) :
    (hasWork s.journal || s.journal.stopping) = true := by
  rw [hstop] at h
  rcases Bool.or_eq_true_iff.mp h with hw | hs
  · simp [hwork hw]
  · simp [hs]

theorem hasWork_transaction (commits : Bool) (j : PostgresJournal) (events : List JournalEvent)
    (trades : List TradeRow) :
    hasWork (transaction commits j events trades) = hasWork j := by
  simp [hasWork]

theorem work_kept (w : ι) (db : Database) (i : ι) (f : Pc) :
    workSignals.Kept (outline w db) (fun _ => code) .workCv i f (code f) := by
  cases f with
  | idle => exact fun k _ => bot_le
  | appendPush ev => exact ⟨ENat.zero_ne_top, fun s _ => single_answered rfl bot_le (.inr rfl)⟩
  | appendCount ev => exact ⟨ENat.one_ne_top, fun s _ => single_idle le_rfl id⟩
  | recordPush t now => exact ⟨ENat.zero_ne_top, fun s _ => single_answered rfl bot_le (.inr rfl)⟩
  | recordCount t now => exact ⟨ENat.one_ne_top, fun s _ => single_idle le_rfl id⟩
  | handedNotify =>
    refine ⟨fun _ j w p k hw => ?_, fun hc => absurd rfl hc⟩
    rcases wait_cases hw with ⟨rfl, _⟩ | ⟨target, _, hc⟩
    · exact le_add_self
    · cases hc
  | flushTarget => exact ⟨ENat.zero_ne_top, fun s _ => single_idle le_rfl id⟩
  | flushNotify target => exact ⟨fun _ j w p k _ => bot_le, fun hc => absurd rfl hc⟩
  | flushWait target => exact ⟨le_rfl, fun s _ _ => ⟨fun hc => (by cases hc), .inl rfl⟩⟩
  | stopSet => exact ⟨ENat.zero_ne_top, fun s _ => single_answered rfl bot_le (.inr rfl)⟩
  | stopNotify => exact fun hc => absurd rfl hc
  | join =>
    rintro s s' k ⟨_, rfl, rfl⟩ _
    exact ⟨le_rfl, le_rfl, fun m hd => hd⟩
  | workWait => exact single_wait le_rfl
  | workTest =>
    refine ⟨ENat.one_ne_top, fun s _ => ?_⟩
    by_cases hgo : (s.journal.stopping && !hasWork s.journal) = true
    · simp only [hgo, if_true]
      exact single_idle le_rfl id
    · simp only [hgo]
      exact single_idle le_rfl id
  | swapEvents =>
    refine ⟨ENat.one_ne_top, fun s _ => single_answered rfl le_rfl (.inl (ready_mono _ _ ?_ rfl))⟩
    intro h
    simp only [hasWork, List.isEmpty_nil, Bool.not_true, Bool.false_or] at h
    simp [hasWork, h]
  | swapTrades events =>
    refine ⟨ENat.one_ne_top, fun s _ => single_answered rfl le_rfl (.inl (ready_mono _ _ ?_ rfl))⟩
    intro h
    simp only [hasWork, takeTrades, List.isEmpty_nil, Bool.not_true, Bool.or_false] at h
    simp [hasWork, h]
  | commit events trades =>
    rintro s s' k ⟨commits, rfl, rfl⟩ _
    have hmono : (hasWork (transaction commits s.journal events trades) ||
        (transaction commits s.journal events trades).stopping) = true →
          (hasWork s.journal || s.journal.stopping) = true :=
      ready_mono s ⟨transaction commits s.journal events trades, s.finished⟩
        (fun h => hasWork_transaction commits s.journal events trades ▸ h) (by simp)
    exact ⟨le_rfl, single_cap_mono hmono, fun m hd => hmono hd⟩
  | doneAdd batchCount => exact ⟨ENat.one_ne_top, fun s _ => single_idle le_rfl id⟩
  | doneNotify => exact fun _ => le_rfl
  | exit =>
    rintro s s' k ⟨rfl, rfl⟩ _
    exact ⟨le_rfl, le_rfl, fun m hd => hd⟩
  | exited => exact fun k hk => absurd hk id
  | appendLock ev => exact bot_le
  | recordLock t now => exact bot_le
  | handedUnlock => exact le_rfl
  | flushLock => exact bot_le
  | flushUnlock target => exact bot_le
  | stopLock => exact bot_le
  | stopUnlock => exact le_rfl
  | workLock => exact le_rfl
  | swapUnlock events trades => exact le_rfl
  | doneLock batchCount => exact le_rfl
  | doneUnlock => exact le_rfl
  | exitUnlock => exact le_rfl

/-- A statement that leaves `done_` alone. -/
theorem due_undone {s s' : Shared} (hdone : s'.journal.done = s.journal.done) (m : Pc)
    (hd : flushedSignals.due m s') : flushedSignals.due m s := by
  cases m <;> simp only [flushedSignals] at hd ⊢
  exact hdone ▸ hd

theorem access_undone {s s' : Shared} {f k : Pc} (hdone : s'.journal.done = s.journal.done) :
    flushedSignals.cap s' + flushedSignals.owes f ≤ flushedSignals.cap s + flushedSignals.owes k ∧
      ∀ m, flushedSignals.due m s' →
        flushedSignals.due m s ∨ flushedSignals.cap s' ≤ flushedSignals.owes k :=
  ⟨by simp [flushedSignals], fun m hd => .inl (due_undone hdone m hd)⟩

theorem flushed_kept (w : ι) (db : Database) (i : ι) (f : Pc) :
    flushedSignals.Kept (outline w db) (fun _ => code) .flushedCv i f (code f) := by
  cases f with
  | idle => exact fun k _ => bot_le
  | appendPush ev => exact ⟨ENat.zero_ne_top, fun s _ => access_undone rfl⟩
  | appendCount ev => exact ⟨ENat.zero_ne_top, fun s _ => access_undone rfl⟩
  | recordPush t now => exact ⟨ENat.zero_ne_top, fun s _ => access_undone rfl⟩
  | recordCount t now => exact ⟨ENat.zero_ne_top, fun s _ => access_undone rfl⟩
  | handedNotify =>
    refine ⟨fun hc => (by cases hc), fun _ => bot_le⟩
  | flushTarget => exact ⟨ENat.zero_ne_top, fun s _ => access_undone rfl⟩
  | flushNotify target => exact ⟨fun hc => (by cases hc), fun _ => bot_le⟩
  | flushWait target =>
    refine ⟨le_rfl, fun s _ hp => ⟨fun _ hd => ?_, .inl rfl⟩⟩
    simp only [Bool.or_eq_false_iff, decide_eq_false_iff_not] at hp
    exact hp.1 hd
  | stopSet => exact ⟨ENat.zero_ne_top, fun s _ => access_undone rfl⟩
  | stopNotify => exact fun _ => bot_le
  | join =>
    rintro s s' k ⟨_, rfl, rfl⟩ _
    exact ⟨le_rfl, le_rfl, fun m hd => hd⟩
  | workWait => exact ⟨le_rfl, fun s _ _ => ⟨fun hc => (by cases hc), .inl rfl⟩⟩
  | workTest =>
    refine ⟨ENat.zero_ne_top, fun s _ => ?_⟩
    by_cases hgo : (s.journal.stopping && !hasWork s.journal) = true
    · simp only [hgo, if_true]
      exact access_undone rfl
    · simp only [hgo]
      exact access_undone rfl
  | swapEvents => exact ⟨ENat.zero_ne_top, fun s _ => access_undone rfl⟩
  | swapTrades events => exact ⟨ENat.zero_ne_top, fun s _ => access_undone rfl⟩
  | commit events trades =>
    rintro s s' k ⟨commits, rfl, rfl⟩ _
    exact ⟨le_rfl, le_rfl, due_undone (by simp)⟩
  | doneAdd batchCount =>
    refine ⟨ENat.zero_ne_top, fun s _ => ⟨?_, fun m _ => .inr le_rfl⟩⟩
    simp [flushedSignals, Pc.owesFlushed]
  | doneNotify => exact fun hc => absurd rfl hc
  | exit =>
    rintro s s' k ⟨rfl, rfl⟩ _
    exact ⟨le_rfl, le_rfl, due_undone rfl⟩
  | exited => exact fun k hk => absurd hk id
  | doneUnlock => exact le_rfl
  | appendLock ev => exact bot_le
  | recordLock t now => exact bot_le
  | handedUnlock => exact bot_le
  | flushLock => exact bot_le
  | flushUnlock target => exact bot_le
  | stopLock => exact bot_le
  | stopUnlock => exact bot_le
  | workLock => exact bot_le
  | swapUnlock events trades => exact bot_le
  | doneLock batchCount => exact bot_le
  | exitUnlock => exact bot_le

/-- What a batch costs the writer, with the flushes that it wakes. -/
def batchCost (threads : ℕ) : ℕ := 3 * threads + 12

def Pc.rank (threads : ℕ) : Pc → ℕ
  | .idle => 0
  | .appendLock _ | .recordLock _ _ => batchCost threads + 11
  | .appendPush _ | .recordPush _ _ => batchCost threads + 10
  | .appendCount _ | .recordCount _ _ => 9
  | .handedUnlock => 8
  | .handedNotify => 7
  | .flushLock => 11
  | .flushTarget => 10
  | .flushNotify _ => 9
  | .flushWait _ => 2
  | .flushUnlock _ => 1
  | .stopLock => 6 * threads + 5
  | .stopSet => 6 * threads + 4
  | .stopUnlock => 6 * threads + 3
  | .stopNotify => 6 * threads + 2
  | .join => 1
  | .workLock => 6
  | .workWait => 5
  | .workTest => 4
  | .swapEvents => 3
  | .swapTrades events => batchCost threads * events.length + 2
  | .swapUnlock _ _ => batchCost threads
  | .commit _ _ => 3 * threads + 11
  | .doneLock _ => 3 * threads + 10
  | .doneAdd _ => 3 * threads + 9
  | .doneUnlock => 3 * threads + 8
  | .doneNotify => 3 * threads + 7
  | .exitUnlock => 2
  | .exit => 1
  | .exited => 0

def ranking (ι : Type) [Fintype ι] : Ranking Pc Shared where
  rank f := f.rank (Fintype.card ι)
  work s :=
    batchCost (Fintype.card ι) * (s.journal.eventQueue.length + s.journal.tradeQueue.length)

variable [Fintype ι]

theorem descends (w : ι) (db : Database) (i : ι) (f : Pc) :
    (ranking ι).Descends (outline w db) (fun _ => code) i f (code f) := by
  cases f with
  | idle => trivial
  | exited => trivial
  | appendPush ev =>
    intro s _
    simp only [ranking, Pc.rank, pushEvent, List.length_append, List.length_singleton]
    ring_nf
    omega
  | recordPush t now =>
    intro s _
    simp only [ranking, Pc.rank, pushTrade, List.length_append, List.length_singleton]
    ring_nf
    omega
  | appendCount ev => exact fun s _ => by simp [ranking, Pc.rank, countOne]
  | recordCount t now => exact fun s _ => by simp [ranking, Pc.rank, countOne]
  | handedNotify =>
    refine ⟨by simp [ranking, Pc.rank], fun j m p k hw => ?_⟩
    rcases wait_cases hw with ⟨rfl, _⟩ | ⟨target, _, hc⟩
    · simp [ranking, Pc.rank]
    · cases hc
  | flushTarget => exact fun s _ => by simp [ranking, Pc.rank]
  | flushNotify target =>
    refine ⟨by simp [ranking, Pc.rank], fun j m p k hw => ?_⟩
    rcases wait_cases hw with ⟨rfl, _⟩ | ⟨target, _, hc⟩
    · simp [ranking, Pc.rank]
    · cases hc
  | stopSet => exact fun s _ => by simp [ranking, Pc.rank, requestStop]
  | stopNotify =>
    refine ⟨6, fun j m p k hw => ?_, ?_⟩
    · rcases wait_cases hw with ⟨rfl, _⟩ | ⟨target, _, hc⟩
      · simp [ranking, Pc.rank]
      · cases hc
    · simp only [ranking, Pc.rank]
      omega
  | join =>
    rintro s s' k ⟨_, rfl, rfl⟩ _
    simp [ranking, Pc.rank]
  | workTest =>
    intro s _
    by_cases hgo : (s.journal.stopping && !hasWork s.journal) = true
    · simp [ranking, hgo, Pc.rank]
    · simp [ranking, hgo, Pc.rank]
  | swapEvents =>
    intro s _
    simp only [ranking, Pc.rank, List.length_nil, Nat.mul_add]
    omega
  | swapTrades events =>
    rintro s ⟨_, j, _, hwork, hevents, hs⟩
    have hlen : 0 < events.length + s.journal.tradeQueue.length := by
      rw [hs, ← hevents]
      simp only [hasWork, Bool.or_eq_true, Bool.not_eq_true', List.isEmpty_eq_false_iff] at hwork
      rcases hwork with hne | hne
      · exact Nat.add_pos_left (List.length_pos_iff.mpr hne) _
      · exact Nat.add_pos_right _ (List.length_pos_iff.mpr hne)
    have hcost := Nat.mul_le_mul_left (batchCost (Fintype.card ι)) hlen
    have hevs : s.journal.eventQueue = [] := by rw [hs]
    simp only [ranking, Pc.rank, takeTrades, hevs, List.length_nil, Nat.zero_add] at hcost ⊢
    rw [Nat.mul_add] at hcost
    omega
  | commit events trades =>
    rintro s s' k ⟨commits, rfl, rfl⟩ _
    simp [ranking, Pc.rank]
  | doneAdd batchCount => exact fun s _ => by simp [ranking, Pc.rank]
  | doneNotify =>
    refine ⟨3, fun j m p k hw => ?_, ?_⟩
    · rcases wait_cases hw with ⟨_, hc⟩ | ⟨target, rfl, _⟩
      · cases hc
      · simp [ranking, Pc.rank]
    · simp only [ranking, Pc.rank]
      omega
  | exit =>
    rintro s s' k ⟨rfl, rfl⟩ _
    simp [ranking, Pc.rank]
  | swapUnlock events trades => exact Nat.lt_succ_self _
  | doneLock batchCount => exact Nat.lt_succ_self _
  | doneUnlock => exact Nat.lt_succ_self _
  | appendLock ev => exact Nat.lt_succ_self _
  | recordLock t now => exact Nat.lt_succ_self _
  | handedUnlock => exact Nat.lt_succ_self 7
  | flushLock => exact Nat.lt_succ_self 10
  | flushWait target => exact Nat.lt_succ_self 1
  | flushUnlock target => exact Nat.lt_succ_self 0
  | stopLock => exact Nat.lt_succ_self _
  | stopUnlock => exact Nat.lt_succ_self _
  | workLock => exact Nat.lt_succ_self 5
  | workWait => exact Nat.lt_succ_self 4
  | exitUnlock => exact Nat.lt_succ_self 1

/-! ## Where the threads come to rest -/

omit [Fintype ι] in
/-- A place where a thread may stay for ever. -/
theorem still_place {shared : Shared} {i : ι} {t : Thread Pc Cv}
    (h : Still (fun _ => code) shared i t) :
    t = ⟨.idle, .running⟩ ∨ t = ⟨.exited, .running⟩ ∨
      (t = ⟨.join, .running⟩ ∧ shared.finished = false) ∨ t = ⟨.workWait, .asleep .workCv⟩ ∨
      ∃ target, t = ⟨.flushWait target, .asleep .flushedCv⟩ := by
  cases h with
  | @idle f calls hc => cases f <;> simp [code] at hc ⊢
  | @disabled f g hc hg =>
    cases f <;> simp only [code, Instr.act.injEq, reduceCtorEq] at hc
    case join =>
      subst hc
      refine .inr (.inr (.inl ⟨rfl, ?_⟩))
      cases hfin : shared.finished
      · rfl
      · exact absurd ⟨hfin, rfl, rfl⟩ (hg shared .idle)
    case commit events trades =>
      subst hc
      exact absurd ⟨true, rfl, rfl⟩ (hg _ _)
    case exit =>
      subst hc
      exact absurd ⟨rfl, rfl⟩ (hg _ _)
  | @asleep f k cv p hw =>
    rcases wait_cases hw with ⟨rfl, rfl⟩ | ⟨target, rfl, rfl⟩
    · simp
    · simp

omit [Fintype ι] in
theorem outside_knows {s : Threads ι} (h : (outline w db).Sound (fun _ => code) s)
    (hnone : s.holder = none) (i : ι) :
    Role w i (s.thread i).place s.shared ∧ (s.thread i).place.knows s.shared := by
  have hst := h.stands i
  generalize s.thread i = t at hst
  cases hst with
  | inside hi _ _ => simp [hnone] at hi
  | outside _ _ ha => exact ha
  | parked _ _ _ ha => exact ha

variable [DecidableEq ι] {s : Threads ι}

/-- Where nothing moves, the writer is gone or sleeps with nothing to do. -/
theorem writer_rests (h : Reachable (Step fun _ => code) (opened w db) s)
    (hstuck : Stuck (fun _ => code) s) :
    (s.thread w = ⟨.exited, .running⟩ ∧ s.shared.finished = true ∧
        s.shared.journal.writer = .exited) ∨
      (s.thread w = ⟨.workWait, .asleep .workCv⟩ ∧ s.shared.journal.stopping = false ∧
        s.shared.journal.done = s.shared.journal.enqueued) := by
  have hsound := reachable_outline h
  have hnone := hstuck.holder (verified w db) hsound
  have hrole := outside_knows hsound hnone
  have hw := hrole w
  rcases still_place (hstuck.still (verified w db) hsound w) with
    hp | hp | ⟨hp, _⟩ | hp | ⟨target, hp⟩
  · rw [hp] at hw
    exact absurd rfl hw.1
  · rw [hp] at hw
    exact .inl ⟨hp, hw.2, hw.1.2⟩
  · rw [hp] at hw
    exact absurd rfl hw.1
  · rw [hp] at hw
    have hanswered : workSignals.Answered .workCv s :=
      Signals.reachable_answered (verified w db) (work_kept w db) (opened_free w db)
        (opened_outline w db) h
    have howes : ∀ j, workSignals.credit (s.thread j) = 0 := by
      intro j
      rcases still_place (hstuck.still (verified w db) hsound j) with
        hj | hj | ⟨hj, _⟩ | hj | ⟨target, hj⟩
      · rw [hj]
        rfl
      · have hr := (hrole j).1
        rw [hj] at hr
        obtain rfl : j = w := hr.1
        simp [hp] at hj
      · rw [hj]
        rfl
      · rw [hj]
        rfl
      · rw [hj]
        rfl
    have hready := hanswered.single_unowed (i := w) howes (by rw [hp])
    simp only [Bool.or_eq_false_iff] at hready
    exact .inr ⟨hp, hready.2, counted (hsound.free hnone) hw.1.2 hready.1⟩
  · rw [hp] at hw
    exact absurd rfl hw.1

/-- No call on the journal hangs. Once no thread begins a call and nobody wakes without being
notified, every schedule comes to an end. Where it does, every `append`, `recordTrade`, `flush`
and destructor has returned, and the writer is over or sleeps with everything counted. -/
theorem journal_settles (w : ι) (db : Database) (s : Threads ι)
    (h : Reachable (Step fun _ => code) (opened w db) s) :
    (∃ bound, ∀ (run : ℕ → Threads ι) (n : ℕ), run 0 = s →
      (∀ k < n, Quiet (fun _ => code) (run k) (run (k + 1))) → n ≤ bound) ∧
      ∀ s', Reachable (Quiet fun _ => code) s s' → Stuck (fun _ => code) s' →
        (∀ i ≠ w, s'.thread i = ⟨.idle, .running⟩) ∧
          ((s'.thread w = ⟨.exited, .running⟩ ∧ s'.shared.journal.stopping = true) ∨
            (s'.thread w = ⟨.workWait, .asleep .workCv⟩ ∧ s'.shared.journal.stopping = false ∧
              s'.shared.journal.done = s'.shared.journal.enqueued)) := by
  refine ⟨⟨(ranking ι).total s, fun run n h₀ hrun => ?_⟩, fun s' hq hstuck => ?_⟩
  · subst h₀
    exact Ranking.run_length_le (verified w db) (descends w db) (reachable_outline h) hrun
  have h' : Reachable (Step fun _ => code) (opened w db) s' := h.trans (hq.map .quiet)
  have hsound := reachable_outline h'
  have hnone := hstuck.holder (verified w db) hsound
  have hrests := writer_rests h' hstuck
  refine ⟨fun i hi => ?_, ?_⟩
  · obtain ⟨hrole, hknows⟩ := outside_knows hsound hnone i
    have hstill := hstuck.still (verified w db) hsound
    rcases still_place (hstill i) with hp | hp | ⟨hp, hfin⟩ | hp | ⟨target, hp⟩
    · exact hp
    · rw [hp] at hrole
      exact absurd hrole.1 hi
    · rw [hp] at hknows
      rcases hrests with ⟨_, hover, _⟩ | ⟨_, hstop, _⟩
      · simp [hfin] at hover
      · simp [Pc.knows, hstop] at hknows
    · rw [hp] at hrole
      exact absurd hrole.1 hi
    · rw [hp] at hknows
      have hanswered : flushedSignals.Answered .flushedCv s' :=
        Signals.reachable_answered (verified w db) (flushed_kept w db)
          (opened_free w db) (opened_outline w db) h'
      have howes : ∀ j, flushedSignals.credit (s'.thread j) = 0 := by
        intro j
        rcases still_place (hstill j) with hj | hj | ⟨hj, _⟩ | hj | ⟨_, hj⟩ <;> rw [hj] <;> rfl
      have hdue := hanswered.unowed (i := i) howes (by simp [flushedSignals]) (by rw [hp])
      rw [hp] at hdue
      -- the writer has passed every target that a flush can wait for
      rcases hrests with ⟨_, _, hexited⟩ | ⟨_, _, hcounted⟩
      · exact absurd (hknows.2 hexited) hdue
      · exact absurd (hknows.1.trans hcounted.ge) hdue
  · rcases hrests with ⟨hp, _, hexited⟩ | hasleep
    · exact .inl ⟨hp, reached_exited (hsound.free hnone) hexited⟩
    · exact .inr hasleep

theorem journal_settles_flushing :
    ∃ bound, ∀ (run : ℕ → Threads Bool) (n : ℕ), run 0 = flushing →
      (∀ k < n, Quiet (fun _ => code) (run k) (run (k + 1))) → n ≤ bound :=
  (journal_settles true ⟨[], []⟩ flushing flushing_reachable).1

end JournalMonitor
