import MatchingEngine.DatabaseEngine

/-! # What `flush()` promises

`flush()` waits until the writer has counted as many records as had been handed over. The
writer counts the records of a transaction that threw, too. -/
namespace FlushCheckpoint

open EngineTypes
open Orders
open OrderBook
open Journal
open BatchLog
open DatabaseJournal
open DatabaseEngine
open EngineMachine
open EngineMoves
open EngineInvariant
open Transitions

/-- The rows of the records follow those that the tables had at first. -/
structure Stored (j : PostgresJournal) (records : List Record) : Prop where
  events : j.trace.opened.events ++ (records.filterMap Record.event?).map insEvent <+: j.db.events
  trades : j.trace.opened.trades ++ (records.filterMap Record.trade?).map insTrade <+: j.db.trades

/-- Records that are counted, and in no batch that was dropped, are in the tables. -/
theorem stored_of_kept {j : PostgresJournal} {records : List Record} (h : JournalInvariant j)
    (hlog : records <+: log j) (hdone : records.length ≤ j.done)
    (hkept : KeptBefore j.trace.batches records.length) : Stored j records := by
  have hattempted : records.length ≤ (attempted j.trace.batches).length := by
    rw [← h.done]
    omega
  have hfirst : records = (attempted j.trace.batches).take records.length := by
    rw [log, List.append_assoc] at hlog
    rw [← List.take_append_of_le_length hattempted]
    exact List.prefix_iff_eq_take.mp hlog
  have hpre : records <+: kept j.trace.batches := hfirst ▸ take_prefix_kept hkept
  constructor
  · rw [h.events, List.prefix_append_right_inj]
    exact (hpre.filterMap _).map _
  · rw [h.trades, List.prefix_append_right_inj]
    exact (hpre.filterMap _).map _

/-! ## Any callers -/

/-- A `flush()` that waits: what it waits for, and the records enqueued before it took the lock. -/
structure Flush where
  target : ℕ
  before : List Record
  deriving DecidableEq

structure Service where
  journal : PostgresJournal
  waiting : List Flush

/-- Any number of threads call, one writer works. -/
inductive ServiceStep : Service → Service → Prop
  | append (s : Service) (ev : JournalEvent) :
      ServiceStep s { s with journal := append s.journal ev }
  | recordTrade (s : Service) (t : Trade) (now : Int64) :
      ServiceStep s { s with journal := recordTrade s.journal t now }
  | flush (s : Service) : ServiceStep s { s with
      waiting := s.waiting ++ [⟨IJournal.flushTarget s.journal, log s.journal⟩] }
  | flushed (s : Service) (f : Flush) (hf : f ∈ s.waiting)
      (hdone : IJournal.flushed s.journal f.target = true) :
      ServiceStep s { s with waiting := s.waiting.erase f }
  | writer (s : Service) (commits : Bool) (j : PostgresJournal)
      (hj : writerStep commits s.journal = some j) : ServiceStep s { s with journal := j }
  | requestStop (s : Service) : ServiceStep s { s with journal := requestStop s.journal }

def service (db : Database) : Service := ⟨openJournal db, []⟩

structure ServiceInvariant (s : Service) : Prop where
  journal : JournalInvariant s.journal
  waiting : ∀ f ∈ s.waiting, f.target = f.before.length ∧ f.before <+: log s.journal

theorem service_step {s s' : Service} (h : ServiceInvariant s) (hs : ServiceStep s s') :
    ServiceInvariant s' := by
  have hgrows : ∀ {j : PostgresJournal}, log s.journal <+: log j →
      ∀ f ∈ s.waiting, f.target = f.before.length ∧ f.before <+: log j := by
    intro j hlog f hf
    obtain ⟨htarget, hbefore⟩ := h.waiting f hf
    exact ⟨htarget, hbefore.trans hlog⟩
  cases hs with
  | append ev =>
    exact ⟨append_invariant h.journal ev, hgrows (log_append s.journal ev ▸ List.prefix_append _ _)⟩
  | recordTrade t now =>
    exact ⟨recordTrade_invariant h.journal t now,
      hgrows (log_recordTrade s.journal t now ▸ List.prefix_append _ _)⟩
  | flush =>
    refine ⟨h.journal, ?_⟩
    intro f hf
    rcases List.mem_append.mp hf with hf | hf
    · exact h.waiting f hf
    · cases List.mem_singleton.mp hf
      exact ⟨h.journal.enqueued, List.prefix_rfl⟩
  | flushed f hf hdone =>
    exact ⟨h.journal, fun g hg => h.waiting g (List.mem_of_mem_erase hg)⟩
  | writer commits j hj =>
    have hlog := (writer_frame h.journal hj).log
    exact ⟨writer_invariant h.journal hj, hgrows (hlog ▸ List.prefix_rfl)⟩
  | requestStop => exact ⟨requestStop_invariant h.journal, hgrows List.prefix_rfl⟩

theorem service_invariant {db : Database} {s : Service} (h : Reachable ServiceStep (service db) s) :
    ServiceInvariant s := by
  apply h.invariant (I := ServiceInvariant) ⟨openJournal_invariant db, nofun⟩
  intro s s' hi _ hs
  exact service_step hi hs

theorem done_of_flushed {j : PostgresJournal} {target : ℕ}
    (h : IJournal.flushed j target = true) (hstop : j.stopping = false) : target ≤ j.done := by
  simpa [IJournal.flushed, hstop] using h

/-! ## The flush of `stop()` -/

section

variable {s s' : Engine PostgresJournal}

/-- While `stop()` flushes, nobody hands over records. -/
def FlushControl (s : Engine PostgresJournal) : Prop :=
  match s.control with
  | .stopFlush _ => s.thread = none
  | .stopWait _ target => s.thread = none ∧ target = s.journal.enqueued
  | _ => True

theorem flushControl_frame (h : FlushControl s) (hcontrol : s'.control = s.control)
    (hthread : s'.thread = s.thread) (henqueued : s'.journal.enqueued = s.journal.enqueued) :
    FlushControl s' := by
  unfold FlushControl at h ⊢
  rw [hcontrol, hthread, henqueued]
  exact h

theorem flushControl_loop {now : Int64} (h : FlushControl s) (hm : LoopMove now s s') :
    FlushControl s' := by
  have hf := loop_frame hm
  unfold FlushControl at h ⊢
  rw [hf.control]
  cases hc : s.control with
  | stopFlush mark =>
    simp only [hc] at h
    exact absurd h hf.working.1
  | stopWait mark target =>
    simp only [hc] at h
    exact absurd h.1 hf.working.1
  | _ => trivial

theorem flushControl_step (hw : WriterInvariant s) (h : FlushControl s) (hs : Step s s') :
    FlushControl s' := by
  cases step_cases hs with
  | push producer cmd => exact flushControl_frame h rfl rfl rfl
  | setOnTrade set => exact flushControl_frame h rfl rfl rfl
  | none => exact h
  | start hc hr => trivial
  | stop hc hr => trivial
  | control hm =>
    cases hm with
    | stopJoin mark hc hj => exact rfl
    | stopFlush mark hc =>
      simp only [FlushControl, hc] at h
      exact ⟨h, rfl⟩
    | _ => trivial
  | loop now hm => exact flushControl_loop h hm
  | background j hj =>
    obtain ⟨commits, hj⟩ := hj
    exact flushControl_frame h rfl rfl (writer_frame hw.journal hj).enqueued

theorem engine_invariant {db : Database} (h : Reachable Lives (initial (openJournal db)) s) :
    WriterInvariant s ∧ FlushControl s := by
  apply h.invariant (I := fun s => WriterInvariant s ∧ FlushControl s) ⟨opened_writer db, trivial⟩
  rintro s s' ⟨hw, hc⟩ _ hs
  cases hs with
  | crash => exact ⟨writer_lives hw (.crash s), trivial⟩
  | run hs => exact ⟨writer_lives hw (.run hs), flushControl_step hw hc hs⟩

end

/-- A `flush()` that returns has stored all that was enqueued before it, unless a batch with
some of it was dropped. That goes for every caller, and for `Engine::stop()`. -/
theorem flush_checkpoint (db : Database) :
    (∀ (s : Service) (f : Flush), Reachable ServiceStep (service db) s → f ∈ s.waiting →
      IJournal.flushed s.journal f.target = true → s.journal.stopping = false →
      KeptBefore s.journal.trace.batches f.before.length → Stored s.journal f.before) ∧
    ∀ (s : Engine PostgresJournal) (mark target : ℕ),
      Reachable Lives (initial (openJournal db)) s → s.control = .stopWait mark target →
      IJournal.flushed s.journal target = true →
      KeptBefore s.journal.trace.batches (log s.journal).length →
      Stored s.journal (log s.journal) ∧
        (log s.journal).filterMap Record.event? = s.trace.appended := by
  constructor
  · intro s f hreach hf hflushed hstop hkept
    have hinv := service_invariant hreach
    obtain ⟨htarget, hbefore⟩ := hinv.waiting f hf
    have hdone := done_of_flushed hflushed hstop
    exact stored_of_kept hinv.journal hbefore (htarget ▸ hdone) hkept
  · intro s mark target hreach hcontrol hflushed hkept
    obtain ⟨hw, hc⟩ := engine_invariant hreach
    simp only [FlushControl, hcontrol] at hc
    have hdone := done_of_flushed hflushed hw.opened
    rw [hc.2, hw.journal.enqueued] at hdone
    exact ⟨stored_of_kept hw.journal List.prefix_rfl hdone hkept, hw.appended⟩

/-! ## A dropped batch -/

def enqueuedEvent : Service := ⟨append (openJournal ⟨[], []⟩) (makeCancelEvent 7 1 0),
  [⟨1, [.event (makeCancelEvent 7 1 0)]⟩]⟩

/-- A `flush()` waits while the writer takes the event, ends its transaction and counts it. -/
def flushing (commits : Bool) : Service :=
  { enqueuedEvent with
    journal := (((writerStep true enqueuedEvent.journal).bind (writerStep commits)).bind
      (writerStep true)).getD enqueuedEvent.journal }

theorem flushing_reachable (commits : Bool) :
    Reachable ServiceStep (service ⟨[], []⟩) (flushing commits) := by
  have happend : Reachable ServiceStep (service ⟨[], []⟩) _ :=
    .next .initial trivial (.append _ (makeCancelEvent 7 1 0))
  have hflush : Reachable ServiceStep (service ⟨[], []⟩) enqueuedEvent :=
    .next happend trivial (.flush _)
  have htake : Reachable ServiceStep (service ⟨[], []⟩) _ :=
    .next hflush trivial (.writer _ true _ rfl)
  have hend : Reachable ServiceStep (service ⟨[], []⟩) _ :=
    .next htake trivial (.writer _ commits _ rfl)
  cases commits with
  | true => exact .next hend trivial (.writer _ true _ rfl)
  | false => exact .next hend trivial (.writer _ true _ rfl)

theorem flush_checkpoint_committed :
    Stored (flushing true).journal [.event (makeCancelEvent 7 1 0)] := by
  apply (flush_checkpoint ⟨[], []⟩).1 _ ⟨1, _⟩ (flushing_reachable true)
  · exact List.mem_singleton.mpr rfl
  · rfl
  · rfl
  · intro before b after hsplit hlt
    have hb : b ∈ (flushing true).journal.trace.batches := by simp [hsplit]
    have hall : ∀ b ∈ (flushing true).journal.trace.batches, b.kept = true := by decide +kernel
    exact hall b hb

/-- The transaction throws, and `flush()` returns over an empty table. -/
theorem flush_checkpoint_dropped : ¬ ∀ (s : Service) (f : Flush),
    Reachable ServiceStep (service ⟨[], []⟩) s → f ∈ s.waiting →
    IJournal.flushed s.journal f.target = true → s.journal.stopping = false →
    Stored s.journal f.before := by
  intro hall
  have hstored := hall _ ⟨1, _⟩ (flushing_reachable false) (List.mem_singleton.mpr rfl) rfl rfl
  have hlen := hstored.events.length_le
  revert hlen
  decide +kernel

end FlushCheckpoint
