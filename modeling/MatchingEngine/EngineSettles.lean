import MatchingEngine.CurrentFeed
import MatchingEngine.FlushCheckpoint

/-! # Every call on the engine returns

A bound on the steps that matching thread, controlling thread and writer have left when nobody
calls any more, and where they come to rest. -/
namespace EngineSettles

open EngineTypes
open Orders
open OrderBook
open BookRuns
open Journal
open BatchLog
open DatabaseJournal
open DatabaseEngine
open EngineMachine
open EngineMoves
open EngineInvariant
open FlushCheckpoint
open RecoveryAtomicity
open CurrentFeed
open Transitions

/-- A thread takes its next step, and nobody calls. -/
inductive Quiet (s : Engine PostgresJournal) : Engine PostgresJournal → Prop
  | control {s' : Engine PostgresJournal} (h : next s .control = some s') : Quiet s s'
  | loop {s' : Engine PostgresJournal} (now : Int64) (h : next s (.loop now) = some s') : Quiet s s'
  | writer (commits : Bool) (j : PostgresJournal) (ha : alive s = true)
      (hj : writerStep commits s.journal = some j) : Quiet s { s with journal := j }

variable {base : List Command} {s s' : Engine PostgresJournal}

theorem Quiet.step (h : Quiet s s') : Step s s' := by
  cases h with
  | control h => exact .event _ h
  | loop now h => exact .event _ h
  | writer commits j ha hj => exact .background s j ha ⟨commits, hj⟩

/-! ## What is left to do -/

/-- Three steps for each record queued, in case it makes a batch of its own. -/
def writerWork (j : PostgresJournal) : ℕ :=
  3 * (j.eventQueue.length + j.tradeQueue.length) +
    match j.writer with
    | .writing _ _ => 2
    | .ended _ => 1
    | _ => 0

/-- Of each command: four steps of the loop, four for each trade, and the writer's for each record. -/
def commandsWork (b : Book) : List Command → ℕ
  | [] => 0
  | cmd :: cmds => 7 * (returned ((perform cmd.call).run b)).length + 7 +
      commandsWork (step b cmd.call) cmds

def loopWork (b : Book) (items : List Command) : LoopPc → ℕ
  | .ready => commandsWork b items + 1
  | .popped cmd => commandsWork b (cmd :: items)
  | .journaled cmd => 7 * (returned ((perform cmd.call).run b)).length + 3 +
      commandsWork (step b cmd.call) items
  | .publishing _ ts => 7 * ts.length + 2 + commandsWork b items
  | .logged _ _ ts => 7 * ts.length + 8 + commandsWork b items
  | .recorded _ _ ts => 7 * ts.length + 4 + commandsWork b items
  | .sent _ _ ts => 7 * ts.length + 3 + commandsWork b items
  | .finished => 0
  | .terminated _ _ => 0

/-- A `start()` that is under way has the whole queue before it. -/
def controlWork (b : Book) (items : List Command) : ControlPc → ℕ
  | .idle => 0
  | .startJoin => commandsWork b items + 4
  | .startReset => commandsWork b items + 3
  | .startLaunch => commandsWork b items + 2
  | .stopQueue _ => 4
  | .stopJoin _ => 3
  | .stopFlush _ => 2
  | .stopWait _ _ => 1

def workLeft (s : Engine PostgresJournal) : ℕ :=
  loopWork s.core.book s.queue.items (pcOf s) + controlWork s.core.book s.queue.items s.control +
    writerWork s.journal

@[simp] theorem writerWork_append (j : PostgresJournal) (ev : JournalEvent) :
    writerWork (append j ev) = writerWork j + 3 := by
  simp only [writerWork, append, List.length_append, List.length_singleton]
  omega

@[simp] theorem writerWork_recordTrade (j : PostgresJournal) (t : Trade) (now : Int64) :
    writerWork (recordTrade j t now) = writerWork j + 3 := by
  simp only [writerWork, recordTrade, List.length_append, List.length_singleton]
  omega

theorem writer_lowers {j j' : PostgresJournal} {commits : Bool} (hopen : j.stopping = false)
    (hs : writerStep commits j = some j') : writerWork j' < writerWork j := by
  rw [writerStep] at hs
  cases hw : j.writer with
  | waiting =>
    simp only [hw] at hs
    split at hs
    · simp [hopen] at hs
    · rename_i hsome
      cases hs
      have hpos : 0 < j.eventQueue.length + j.tradeQueue.length := by
        rw [Bool.and_eq_true, List.isEmpty_iff, List.isEmpty_iff, not_and_or] at hsome
        rcases hsome with he | ht
        · have := List.length_pos_iff.mpr he
          omega
        · have := List.length_pos_iff.mpr ht
          omega
      simp only [writerWork, hw, List.length_nil]
      omega
  | writing events trades =>
    simp only [hw, Option.some.injEq] at hs
    subst hs
    simp [writerWork, hw]
  | ended batchCount =>
    simp only [hw, Option.some.injEq] at hs
    subst hs
    simp [writerWork, hw]
  | exited => simp [hw] at hs

/-- The writer leaves only when the journal is being destroyed. -/
theorem writer_stays {j j' : PostgresJournal} {commits : Bool} (hopen : j.stopping = false)
    (hs : writerStep commits j = some j') : j'.writer ≠ .exited := by
  cases writer_cases hs with
  | exit hw he ht hstop =>
    rw [hopen] at hstop
    cases hstop
  | take => exact nofun
  | write events trades =>
    rw [transaction_writer]
    exact nofun
  | count => exact nofun

theorem loop_lowers {old : List Command} {now : Int64} (hp : ProcessInvariant old base s)
    (hm : LoopMove now s s') :
    loopWork s'.core.book s'.queue.items (pcOf s') + writerWork s'.journal <
      loopWork s.core.book s.queue.items (pcOf s) + writerWork s.journal := by
  cases hm with
  | exit hpc hq hs => simp [pcOf, hpc, loopWork]
  | take cmd items hpc hq => simp [pcOf, hpc, hq, loopWork]
  | journal cmd hpc =>
    -- the event is one more record for the writer
    simp only [pcOf, hpc, Option.getD_some, loopWork, journalCommand, commandsWork, IJournal.append,
      writerWork_append]
    omega
  | apply cmd ts core hpc hr =>
    obtain ⟨_, rfl, rfl⟩ := applied_fresh hp.reachable_book hr
    simp [pcOf, hpc, loopWork]
  | reject cmd f core hpc hr =>
    simp only [pcOf, hpc, Option.getD_some, loopWork]
    omega
  | log cmd t ts hpc =>
    simp only [pcOf, hpc, Option.getD_some, loopWork, List.length_cons]
    omega
  | record cmd t ts hpc =>
    -- and so is the trade
    simp only [pcOf, hpc, Option.getD_some, loopWork, IJournal.recordTrade, writerWork_recordTrade]
    omega
  | send cmd t ts hpc => simp [pcOf, hpc, loopWork]
  | callback cmd t ts hpc => simp [pcOf, hpc, loopWork]
  | report cmd hpc =>
    simp only [pcOf, hpc, Option.getD_some, loopWork]
    omega

/-- While `start()` is under way there is no matching thread. -/
theorem controlWork_loop {now : Int64} (hc : ControlInvariant s) (hm : LoopMove now s s') :
    controlWork s'.core.book s'.queue.items s'.control =
      controlWork s.core.book s.queue.items s.control := by
  have hf := loop_frame hm
  have hthread := hf.working.1
  rw [hf.control]
  cases hcontrol : s.control with
  | startJoin | startReset =>
    simp only [ControlInvariant, hcontrol] at hc
    exact absurd hc.2 hthread
  | startLaunch =>
    simp only [ControlInvariant, hcontrol] at hc
    exact absurd hc.2.1 hthread
  | _ => rfl

theorem control_lowers (hc : ControlInvariant s) (hm : ControlMove s s') :
    workLeft s' < workLeft s := by
  cases hm with
  | startJoin hcontrol hj =>
    have hpc := pcOf_joined hj
    simp only [pcOf] at hpc
    simp [workLeft, controlWork, hcontrol, pcOf, hpc, loopWork]
  | startReset hcontrol =>
    simp [workLeft, controlWork, hcontrol, pcOf, ThreadSafeQueue.reset]
  | startLaunch hcontrol =>
    simp only [ControlInvariant, hcontrol] at hc
    simp [workLeft, controlWork, hcontrol, pcOf, hc.2.1, loopWork]
  | stopQueue mark hcontrol => simp [workLeft, controlWork, hcontrol, pcOf, ThreadSafeQueue.stop]
  | stopJoin mark hcontrol hj =>
    have hpc := pcOf_joined hj
    simp only [pcOf] at hpc
    simp [workLeft, controlWork, hcontrol, pcOf, hpc, loopWork]
  | stopFlush mark hcontrol => simp [workLeft, controlWork, hcontrol, pcOf]
  | stopWait mark target hcontrol hflushed => simp [workLeft, controlWork, hcontrol, pcOf]

/-! ## What holds in every run -/

structure Settling (base : List Command) (s : Engine PostgresJournal) : Prop where
  process : ProcessInvariant [] base s
  control : ControlInvariant s
  writer : WriterInvariant s
  flush : FlushControl s
  /-- Nobody destroys the journal. -/
  atWork : s.journal.writer ≠ .exited

theorem settling_recovered {db : Database} {core : Core}
    (hok : (recover (loadAll (openJournal db))).run freshCore = .ok () core) :
    Settling ((loadAll (openJournal db)).filterMap commandOf) (restarted (initial (openJournal db)))
    where
  process := (live_recovered (j := openJournal db) hok).process
  control := rfl
  writer := ⟨openJournal_invariant db, rfl, rfl⟩
  flush := trivial
  atWork := nofun

theorem settling_step (h : Settling base s) (hs : Step s s') : Settling base s' := by
  obtain ⟨hp, hc⟩ := step_invariant h.process h.control hs
  refine ⟨hp, hc, writer_move h.writer (step_moves hs), flushControl_step h.writer h.flush hs, ?_⟩
  cases step_moves hs with
  | quiet hcore htrace hjournal =>
    rcases hjournal with hjournal | ⟨commits, hj⟩
    · exact hjournal ▸ h.atWork
    · exact writer_stays h.writer.opened hj
  | loop now hm => cases hm <;> exact h.atWork

theorem settling_reachable {s₀ : Engine PostgresJournal} (h₀ : Settling base s₀)
    (h : Reachable Step s₀ s) : Settling base s :=
  h.invariant h₀ fun _ _ hi _ hs => settling_step hi hs

theorem quiet_lowers (h : Settling base s) (hq : Quiet s s') : workLeft s' < workLeft s := by
  cases hq with
  | control hn =>
    have ha := next_alive hn
    rw [next, if_pos ha] at hn
    exact control_lowers h.control (control_cases hn)
  | loop now hn =>
    have ha := next_alive hn
    rw [next, if_pos ha] at hn
    have hm := loop_cases hn
    have hloop := loop_lowers h.process hm
    rw [workLeft, workLeft, controlWork_loop h.control hm]
    omega
  | writer commits j ha hj => exact Nat.add_lt_add_left (writer_lowers h.writer.opened hj) _

/-! ## Where the threads come to rest -/

/-- No thread can move. -/
def Stuck (s : Engine PostgresJournal) : Prop := ∀ s', ¬ Quiet s s'

/-- No call is under way. An engine that runs sleeps over an empty queue with every push applied,
one that does not has no thread, and the writer has counted every record. -/
structure Settled (s : Engine PostgresJournal) : Prop where
  returned : s.control = .idle
  running : s.running = true → s.thread = some .ready ∧ s.queue.items = [] ∧
    s.trace.applied = s.trace.pushed.map Prod.snd
  stopped : s.running = false → s.thread = none
  counted : s.journal.done = s.journal.enqueued

/-- The process has died of a command that submits a resting id. -/
def Died (s : Engine PostgresJournal) : Prop :=
  ∃ cmd f, s.thread = some (.terminated cmd f) ∧ ¬ Fresh s.core.book cmd

theorem Stuck.writer (hstuck : Stuck s) (ha : alive s = true) (h : Settling base s) :
    s.journal.done = s.journal.enqueued := by
  have hnone : writerStep true s.journal = none := by
    rw [Option.eq_none_iff_forall_ne_some]
    exact fun j hj => hstuck _ (.writer true j ha hj)
  rw [writerStep] at hnone
  cases hw : s.journal.writer with
  | waiting =>
    simp only [hw] at hnone
    split at hnone
    · rename_i hempty
      rw [Bool.and_eq_true, List.isEmpty_iff, List.isEmpty_iff] at hempty
      have hlog := log_of_drained h.writer.journal hempty.1 hempty.2 (by rw [hw]; rfl)
      have hdone := h.writer.journal.done
      rw [hw, ← hlog, ← h.writer.journal.enqueued] at hdone
      exact hdone
    · cases hnone
  | writing events trades => simp [hw] at hnone
  | ended batchCount => simp [hw] at hnone
  | exited => exact absurd hw h.atWork

/-- A matching thread that cannot move has nothing to take. -/
theorem Stuck.loop (hstuck : Stuck s) (ha : alive s = true) {pc : LoopPc} (hpc : s.thread = some pc) :
    pc = .finished ∨ pc = .ready ∧ s.queue.items = [] ∧ s.queue.stopping = false := by
  have hnone : loopStep 0 s = none := by
    rw [Option.eq_none_iff_forall_ne_some]
    intro s' hs
    exact hstuck s' (.loop 0 ((if_pos ha).trans hs))
  cases pc with
  | ready =>
    cases hq : s.queue.items with
    | nil =>
      cases hs : s.queue.stopping with
      | false => exact .inr ⟨rfl, rfl, rfl⟩
      | true => simp [loopStep, hpc, ThreadSafeQueue.pop, hq, hs] at hnone
    | cons cmd items => simp [loopStep, hpc, ThreadSafeQueue.pop, hq] at hnone
  | publishing cmd ts => cases ts <;> simp [loopStep, hpc] at hnone
  | finished => exact .inl rfl
  | terminated cmd f => simp [alive, hpc] at ha
  | _ => simp [loopStep, hpc] at hnone

theorem Stuck.control (hstuck : Stuck s) (ha : alive s = true) (h : Settling base s) :
    s.control = .idle := by
  have hnone : controlStep s = none := by
    rw [Option.eq_none_iff_forall_ne_some]
    intro s' hs
    exact hstuck s' (.control ((if_pos ha).trans hs))
  have hcontrol := h.control
  cases hc : s.control with
  | idle => rfl
  | startJoin =>
    simp only [ControlInvariant, hc] at hcontrol
    simp [controlStep, hc, joined, hcontrol.2] at hnone
  | stopJoin mark =>
    simp only [ControlInvariant, hc] at hcontrol
    obtain ⟨_, hthread, hstop, _⟩ := hcontrol
    obtain ⟨pc, hpc⟩ := Option.ne_none_iff_exists'.mp hthread
    -- the stop flag is set, so the thread has left its loop
    rcases hstuck.loop ha hpc with rfl | ⟨_, _, hopen⟩
    · simp [controlStep, hc, joined, hpc] at hnone
    · rw [hopen] at hstop
      cases hstop
  | stopWait mark target =>
    have hflush := h.flush
    simp only [FlushControl, hc] at hflush
    have hcounted := hstuck.writer ha h
    simp [controlStep, hc, IJournal.flushed, hflush.2, hcounted] at hnone
  | _ => simp [controlStep, hc] at hnone

theorem Stuck.settled (hstuck : Stuck s) (ha : alive s = true) (h : Settling base s) :
    Settled s := by
  have hidle := hstuck.control ha h
  have hcontrol := h.control
  simp only [ControlInvariant, hidle] at hcontrol
  refine ⟨hidle, ?_, ?_, hstuck.writer ha h⟩
  · intro hrunning
    rw [if_pos hrunning] at hcontrol
    obtain ⟨⟨hthread, hmore⟩, _⟩ := hcontrol
    obtain ⟨pc, hpc⟩ := Option.ne_none_iff_exists'.mp hthread
    rcases hstuck.loop ha hpc with rfl | ⟨rfl, hitems, _⟩
    · exact absurd hpc hmore
    · have hstream := (h.process.at hpc).stream
      rw [hitems] at hstream
      refine ⟨hpc, hitems, ?_⟩
      simpa [unapplied, inHand] using hstream.symm
  · intro hstopped
    rwa [hstopped, if_neg Bool.false_ne_true] at hcontrol

theorem died_of_dead (h : Settling base s) (ha : alive s = false) : Died s := by
  rw [alive] at ha
  split at ha
  · rename_i cmd f hpc
    exact ⟨cmd, f, hpc, (h.process.at hpc).rejected cmd rfl⟩
  · cases ha

/-- Whatever has been called on the engine, when no further call comes every schedule of the
matching thread, the controlling thread and the writer ends, whatever the transactions do. Where
it does, `start()` or `stop()` has returned, an engine that runs has applied every push, and every
record has been through its batch, unless the process has died of a resting id. -/
theorem calls_return (db : Database) (core : Core)
    (hok : (recover (loadAll (openJournal db))).run freshCore = .ok () core)
    (s : Engine PostgresJournal) (h : Reachable Step (restarted (initial (openJournal db))) s) :
    (∃ bound, ∀ (run : ℕ → Engine PostgresJournal) (n : ℕ), run 0 = s →
      (∀ k < n, Quiet (run k) (run (k + 1))) → n ≤ bound) ∧
    ∀ s', Reachable Quiet s s' → Stuck s' → Settled s' ∨ Died s' := by
  have hs := settling_reachable (settling_recovered hok) h
  constructor
  · refine ⟨workLeft s, ?_⟩
    rintro run n rfl hrun
    exact run_length_le (I := Settling _)
      (fun t t' hi hq => ⟨settling_step hi hq.step, quiet_lowers hi hq⟩) hs hrun
  · intro s' hrun hstuck
    have hs' := settling_reachable hs (hrun.map Quiet.step)
    cases ha : alive s' with
    | true => exact .inl (hstuck.settled ha hs')
    | false => exact .inr (died_of_dead hs' ha)

/-- `stop()` is called with two orders in the queue. -/
def stopping : List Event :=
  [.start, .control, .control, .control,
    .push 1 (.submit (NewOrder.limit 1 1 .sell 5 five_pos .hundred)),
    .push 2 (.submit (NewOrder.market 2 2 .buy 3 three_pos)), .stop]

theorem stopping_waits : (events (restarted (initial (openJournal ⟨[], []⟩))) stopping).map
    (fun s => (s.control, s.queue.items.length)) = some (.stopQueue 2, 2) := by
  decide +kernel

theorem calls_return_stopping : ∃ s,
    events (restarted (initial (openJournal ⟨[], []⟩))) stopping = some s ∧
    s.control = .stopQueue 2 ∧ s.queue.items.length = 2 ∧
    ∃ bound, ∀ (run : ℕ → Engine PostgresJournal) (n : ℕ), run 0 = s →
      (∀ k < n, Quiet (run k) (run (k + 1))) → n ≤ bound := by
  obtain ⟨s, hs, hobs⟩ := Option.map_eq_some_iff.mp stopping_waits
  obtain ⟨hcontrol, hitems⟩ := Prod.mk.inj hobs
  refine ⟨s, hs, hcontrol, hitems, ?_⟩
  exact (calls_return ⟨[], []⟩ freshCore rfl s (events_reachable .initial hs)).1

end EngineSettles
