import MatchingEngine.EngineMachine

/-! # What a step of the engine can do

Every proof about runs of the engine goes by cases over the moves listed here. -/
namespace EngineMoves

open EngineTypes
open Orders
open OrderBook
open BookRuns
open Journal
open EngineMachine
open Transitions

variable {J : Type} {s s' : Engine J}

/-! ## What the matching thread has in hand -/

/-- The trades of the command in hand that are not in the trade log yet. -/
def pending : LoopPc → List Trade
  | .publishing _ ts => ts
  | .logged _ _ ts => ts
  | .recorded _ _ ts => ts
  | .sent _ _ ts => ts
  | _ => []

/-- The trade being published. -/
def current : LoopPc → Option Trade
  | .logged _ t _ => some t
  | .recorded _ t _ => some t
  | .sent _ t _ => some t
  | _ => none

def inHand : LoopPc → List Command
  | .popped cmd => [cmd]
  | _ => []

def unapplied : LoopPc → List Command
  | .journaled cmd => [cmd]
  | .terminated cmd _ => [cmd]
  | _ => []

/-- The command whose trades are being published. -/
def publishing : LoopPc → Option Command
  | .publishing cmd _ => some cmd
  | .logged cmd _ _ => some cmd
  | .recorded cmd _ _ => some cmd
  | .sent cmd _ _ => some cmd
  | _ => none

/-- The command that the process died of. -/
def fatal : LoopPc → Option Command
  | .terminated cmd _ => some cmd
  | _ => none

theorem unapplied_of_publishing {pc : LoopPc} {cmd : Command} (h : publishing pc = some cmd) :
    unapplied pc = [] := by
  cases pc <;> simp_all [publishing, unapplied]

/-- At most one command is journaled and not applied. -/
theorem unapplied_cons {pc : LoopPc} {cmd : Command} {cmds : List Command}
    (h : unapplied pc = cmd :: cmds) : cmds = [] := by
  simp only [unapplied] at h
  split at h <;> cases h <;> rfl

/-- A thread that does not exist has nothing in hand. -/
def pcOf (s : Engine J) : LoopPc := s.thread.getD .finished

/-- The matching thread exists and has not left its loop. -/
def Working (s : Engine J) : Prop := s.thread ≠ none ∧ s.thread ≠ some .finished

theorem working_of_thread {pc : LoopPc} (hpc : s.thread = some pc) (hne : pc ≠ .finished) :
    Working s := by
  rw [Working, hpc]
  exact ⟨Option.some_ne_none pc, fun h => hne (Option.some.inj h)⟩

theorem pcOf_joined (hj : joined s = true) : pcOf s = .finished := by
  rw [pcOf]
  cases hpc : s.thread with
  | none => rfl
  | some pc => cases pc <;> simp [joined, hpc] at hj ⊢

/-- What a step of the matching thread leaves to the others, and when it can be its last. -/
structure LoopFrame (s s' : Engine J) : Prop where
  control : s'.control = s.control
  running : s'.running = s.running
  stopping : s'.queue.stopping = s.queue.stopping
  pushed : s'.trace.pushed = s.trace.pushed
  applied : s.trace.applied.length ≤ s'.trace.applied.length
  working : Working s
  thread : s'.thread ≠ none
  last : s'.thread = some .finished → s.thread = some .ready ∧ s.queue.items = [] ∧
    s.queue.stopping = true ∧ s'.trace.applied = s.trace.applied

/-- A step that is not the last. -/
theorem LoopFrame.of_more {pc pc' : LoopPc} (hpc : s.thread = some pc) (hpc' : s'.thread = some pc')
    (hne : pc ≠ .finished) (hne' : pc' ≠ .finished) (hcontrol : s'.control = s.control)
    (hrunning : s'.running = s.running) (hstopping : s'.queue.stopping = s.queue.stopping)
    (hpushed : s'.trace.pushed = s.trace.pushed)
    (happlied : s.trace.applied.length ≤ s'.trace.applied.length) : LoopFrame s s' where
  control := hcontrol
  running := hrunning
  stopping := hstopping
  pushed := hpushed
  applied := happlied
  working := working_of_thread hpc hne
  thread := (working_of_thread hpc' hne').1
  last h := absurd h (working_of_thread hpc' hne').2

/-! ## Moves of the matching thread -/

section

variable [IJournal J] {now : Int64}

/-- Everything that a step of the matching thread can be. -/
inductive LoopMove (now : Int64) (s : Engine J) : Engine J → Prop
  | exit (hpc : s.thread = some .ready) (hq : s.queue.items = []) (hs : s.queue.stopping = true) :
      LoopMove now s { s with thread := some .finished }
  | take (cmd : Command) (items : List Command) (hpc : s.thread = some .ready)
      (hq : s.queue.items = cmd :: items) :
      LoopMove now s { s with
        queue := { s.queue with items := items }
        thread := some (.popped cmd) }
  | journal (cmd : Command) (hpc : s.thread = some (.popped cmd)) :
      LoopMove now s (journalCommand s cmd now)
  | apply (cmd : Command) (ts : List Trade) (core : Core) (hpc : s.thread = some (.journaled cmd))
      (hr : (applyCommand cmd).run s.core = .ok ts core) :
      LoopMove now s { s with
        core := core
        thread := some (.publishing cmd ts)
        trace := { s.trace with applied := s.trace.applied ++ [cmd] } }
  | reject (cmd : Command) (f : Failure) (core : Core) (hpc : s.thread = some (.journaled cmd))
      (hr : (applyCommand cmd).run s.core = .error f core) :
      LoopMove now s { s with core := core, thread := some (.terminated cmd f) }
  | log (cmd : Command) (t : Trade) (ts : List Trade)
      (hpc : s.thread = some (.publishing cmd (t :: ts))) :
      LoopMove now s { s with
        core := { s.core with tradeLog := s.core.tradeLog ++ [t] }
        thread := some (.logged cmd t ts) }
  | record (cmd : Command) (t : Trade) (ts : List Trade)
      (hpc : s.thread = some (.logged cmd t ts)) :
      LoopMove now s { s with
        journal := IJournal.recordTrade s.journal t now
        thread := some (.recorded cmd t ts) }
  | send (cmd : Command) (t : Trade) (ts : List Trade)
      (hpc : s.thread = some (.recorded cmd t ts)) :
      LoopMove now s { s with
        thread := some (.sent cmd t ts)
        trace := { s.trace with
          sink := s.trace.sink ++ [.onTrade (s.core.tradeLog.length - 1) t] } }
  | callback (cmd : Command) (t : Trade) (ts : List Trade)
      (hpc : s.thread = some (.sent cmd t ts)) :
      LoopMove now s { s with
        thread := some (.publishing cmd ts)
        trace := { s.trace with
          callbacks := if s.onTrade then
            s.trace.callbacks ++ [(s.core.tradeLog.length - 1, t)] else s.trace.callbacks } }
  | report (cmd : Command) (hpc : s.thread = some (.publishing cmd [])) :
      LoopMove now s { s with
        thread := some .ready
        trace := { s.trace with
          sink := s.trace.sink ++ [topOfBook s.core.book]
          passed := s.trace.passed ++ [(s.core.book, s.core.tradeLog)] } }

theorem loop_cases (h : loopStep now s = some s') : LoopMove now s s' := by
  cases hpc : s.thread with
  | none => simp [loopStep, hpc] at h
  | some pc =>
    cases pc with
    | ready =>
      cases hq : s.queue.items with
      | nil =>
        cases hs : s.queue.stopping with
        | false => simp [loopStep, hpc, ThreadSafeQueue.pop, hq, hs] at h
        | true =>
          have hs' : { s with thread := some .finished } = s' := by
            simpa [loopStep, hpc, ThreadSafeQueue.pop, hq, hs] using h
          exact hs' ▸ .exit hpc hq hs
      | cons cmd items =>
        have hs' : { s with
            queue := { s.queue with items := items }
            thread := some (.popped cmd) } = s' := by
          simpa [loopStep, hpc, ThreadSafeQueue.pop, hq] using h
        exact hs' ▸ .take cmd items hpc hq
    | popped cmd =>
      simp only [loopStep, hpc, Option.some.injEq] at h
      exact h ▸ .journal cmd hpc
    | journaled cmd =>
      simp only [loopStep, hpc, Option.some.injEq, applyStep] at h
      cases hr : (applyCommand cmd).run s.core with
      | ok ts core =>
        rw [hr] at h
        exact h ▸ .apply cmd ts core hpc hr
      | error f core =>
        rw [hr] at h
        exact h ▸ .reject cmd f core hpc hr
    | publishing cmd ts =>
      cases ts with
      | nil =>
        simp only [loopStep, hpc, Option.some.injEq] at h
        exact h ▸ .report cmd hpc
      | cons t ts =>
        simp only [loopStep, hpc, Option.some.injEq] at h
        exact h ▸ .log cmd t ts hpc
    | logged cmd t ts =>
      simp only [loopStep, hpc, Option.some.injEq] at h
      exact h ▸ .record cmd t ts hpc
    | recorded cmd t ts =>
      simp only [loopStep, hpc, Option.some.injEq] at h
      exact h ▸ .send cmd t ts hpc
    | sent cmd t ts =>
      simp only [loopStep, hpc, Option.some.injEq] at h
      exact h ▸ .callback cmd t ts hpc
    | finished => simp [loopStep, hpc] at h
    | terminated cmd f => simp [loopStep, hpc] at h

theorem loop_frame (hm : LoopMove now s s') : LoopFrame s s' := by
  cases hm with
  | exit hpc hq hs =>
    exact ⟨rfl, rfl, rfl, rfl, Nat.le_refl _, working_of_thread hpc (by simp), by simp,
      fun _ => ⟨hpc, hq, hs, rfl⟩⟩
  | apply cmd ts core hpc hr =>
    exact .of_more hpc rfl (by simp) (by simp) rfl rfl rfl rfl (by simp)
  | take cmd items hpc hq =>
    exact .of_more hpc rfl (by simp) (by simp) rfl rfl rfl rfl (Nat.le_refl _)
  | journal cmd hpc => exact .of_more hpc rfl (by simp) (by simp) rfl rfl rfl rfl (Nat.le_refl _)
  | reject cmd f core hpc hr =>
    exact .of_more hpc rfl (by simp) (by simp) rfl rfl rfl rfl (Nat.le_refl _)
  | log cmd t ts hpc => exact .of_more hpc rfl (by simp) (by simp) rfl rfl rfl rfl (Nat.le_refl _)
  | record cmd t ts hpc =>
    exact .of_more hpc rfl (by simp) (by simp) rfl rfl rfl rfl (Nat.le_refl _)
  | send cmd t ts hpc => exact .of_more hpc rfl (by simp) (by simp) rfl rfl rfl rfl (Nat.le_refl _)
  | callback cmd t ts hpc =>
    exact .of_more hpc rfl (by simp) (by simp) rfl rfl rfl rfl (Nat.le_refl _)
  | report cmd hpc => exact .of_more hpc rfl (by simp) (by simp) rfl rfl rfl rfl (Nat.le_refl _)

end

/-! ## Moves of the controlling thread -/

section

variable [IJournal J]

/-- Everything that a step inside `start` or `stop` can be. -/
inductive ControlMove (s : Engine J) : Engine J → Prop
  | startJoin (hc : s.control = .startJoin) (hj : joined s = true) :
      ControlMove s { s with thread := none, control := .startReset }
  | startReset (hc : s.control = .startReset) :
      ControlMove s { s with queue := s.queue.reset, control := .startLaunch }
  | startLaunch (hc : s.control = .startLaunch) :
      ControlMove s { s with running := true, thread := some .ready, control := .idle }
  | stopQueue (mark : ℕ) (hc : s.control = .stopQueue mark) :
      ControlMove s { s with queue := s.queue.stop, control := .stopJoin mark }
  | stopJoin (mark : ℕ) (hc : s.control = .stopJoin mark) (hj : joined s = true) :
      ControlMove s { s with thread := none, control := .stopFlush mark }
  | stopFlush (mark : ℕ) (hc : s.control = .stopFlush mark) :
      ControlMove s { s with control := .stopWait mark (IJournal.flushTarget s.journal) }
  | stopWait (mark target : ℕ) (hc : s.control = .stopWait mark target)
      (hf : IJournal.flushed s.journal target = true) : ControlMove s { s with control := .idle }

theorem control_cases (h : controlStep s = some s') : ControlMove s s' := by
  cases hc : s.control with
  | idle => simp [controlStep, hc] at h
  | startJoin =>
    simp only [controlStep, hc, Option.ite_none_right_eq_some, Option.some.injEq] at h
    exact h.2 ▸ .startJoin hc h.1
  | startReset =>
    simp only [controlStep, hc, Option.some.injEq] at h
    exact h ▸ .startReset hc
  | startLaunch =>
    simp only [controlStep, hc, Option.some.injEq] at h
    exact h ▸ .startLaunch hc
  | stopQueue mark =>
    simp only [controlStep, hc, Option.some.injEq] at h
    exact h ▸ .stopQueue mark hc
  | stopJoin mark =>
    simp only [controlStep, hc, Option.ite_none_right_eq_some, Option.some.injEq] at h
    exact h.2 ▸ .stopJoin mark hc h.1
  | stopFlush mark =>
    simp only [controlStep, hc, Option.some.injEq] at h
    exact h ▸ .stopFlush mark hc
  | stopWait mark target =>
    simp only [controlStep, hc, Option.ite_none_right_eq_some, Option.some.injEq] at h
    exact h.2 ▸ .stopWait mark target hc h.1

/-! ## Moves of the engine -/

inductive EngineMove (s : Engine J) : Engine J → Prop
  | push (producer : ℕ) (cmd : Command) :
      EngineMove s { s with
        queue := s.queue.push cmd
        trace := { s.trace with pushed := s.trace.pushed ++ [(producer, cmd)] } }
  | setOnTrade (set : Bool) : EngineMove s { s with onTrade := set }
  /-- `start()` while running and `stop()` while not. -/
  | none : EngineMove s s
  | start (hc : s.control = .idle) (hr : s.running = false) :
      EngineMove s { s with control := .startJoin }
  | stop (hc : s.control = .idle) (hr : s.running = true) :
      EngineMove s { s with running := false, control := .stopQueue s.trace.pushed.length }
  | control {s' : Engine J} (hm : ControlMove s s') : EngineMove s s'
  | loop {s' : Engine J} (now : Int64) (hm : LoopMove now s s') : EngineMove s s'
  | background (j : J) (hj : IJournal.Background s.journal j) :
      EngineMove s { s with journal := j }

theorem next_alive {e : Event} (h : next s e = some s') : alive s = true := by
  by_contra ha
  simp only [next] at h
  rw [if_neg ha] at h
  cases h

theorem next_cases {e : Event} (h : next s e = some s') : EngineMove s s' := by
  have ha := next_alive h
  simp only [next] at h
  rw [if_pos ha] at h
  cases e with
  | push producer cmd =>
    cases h
    exact .push producer cmd
  | setOnTrade set =>
    cases h
    exact .setOnTrade set
  | start =>
    simp only [Option.ite_none_right_eq_some] at h
    obtain ⟨hc, h⟩ := h
    split at h
    · cases h
      exact .none
    · rename_i hr
      cases h
      exact .start hc (Bool.eq_false_iff.mpr hr)
  | stop =>
    simp only [Option.ite_none_right_eq_some] at h
    obtain ⟨hc, h⟩ := h
    split at h
    · rename_i hr
      cases h
      exact .stop hc hr
    · cases h
      exact .none
  | control => exact .control (control_cases h)
  | loop now => exact .loop now (loop_cases h)

theorem step_cases (h : Step s s') : EngineMove s s' := by
  cases h with
  | event e he => exact next_cases he
  | background j ha hj => exact .background j hj

/-- A step moves the matching thread, or leaves the core and all of the trace but the
pushes alone. -/
inductive Move (s : Engine J) : Engine J → Prop
  | loop {s' : Engine J} (now : Int64) (hm : LoopMove now s s') : Move s s'
  | quiet {s' : Engine J} (hcore : s'.core = s.core)
      (htrace : ∃ pushed, s'.trace = { s.trace with pushed := pushed })
      (hjournal : s'.journal = s.journal ∨ IJournal.Background s.journal s'.journal) : Move s s'

theorem step_moves (h : Step s s') : Move s s' := by
  cases step_cases h with
  | loop now hm => exact .loop now hm
  | control hm => cases hm <;> exact .quiet rfl ⟨_, rfl⟩ (.inl rfl)
  | background j hj => exact .quiet rfl ⟨_, rfl⟩ (.inr hj)
  | _ => exact .quiet rfl ⟨_, rfl⟩ (.inl rfl)

/-- Nothing that was journaled is ever taken back. -/
theorem history_grows (h : Move s s') : s.trace.history <+: s'.trace.history := by
  cases h with
  | quiet hcore htrace hjournal =>
    obtain ⟨pushed, htrace⟩ := htrace
    exact htrace ▸ List.prefix_rfl
  | loop now hm =>
    cases hm with
    | journal => exact List.prefix_append _ _
    | _ => exact List.prefix_rfl

end

end EngineMoves
