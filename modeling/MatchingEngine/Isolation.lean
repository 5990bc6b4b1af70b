import MatchingEngine.Recovery

/-! # Rejected commands

`addOrder` throws when it rejects, and the matching loop has journaled the command by then
and catches nothing. So a rejection ends the process, and no later one can recover. -/
namespace Isolation

open EngineTypes
open Orders
open OrderBook
open BookRuns
open Journal
open EngineMachine
open EngineMoves
open EngineInvariant
open Recovery
open Transitions

section

variable {J : Type} {s s' : Engine J} {old base : List Command} {cmd : Command}

/-- A step of the matching thread alone. -/
def LoopStep [IJournal J] (s s' : Engine J) : Prop := ∃ now, next s (.loop now) = some s'

/-- The commands journaled so far, then those the loop has yet to journal, in its order. -/
def commands (s : Engine J) : List Command :=
  s.trace.history ++ inHand (pcOf s) ++ s.queue.items

theorem LoopStep.move [IJournal J] (h : LoopStep s s') : ∃ now, LoopMove now s s' := by
  obtain ⟨now, h⟩ := h
  refine ⟨now, loop_cases ?_⟩
  have ha := next_alive h
  rw [next] at h
  rwa [if_pos ha] at h

theorem loopStep_of [IJournal J] (ha : alive s = true) (h : loopStep 0 s = some s') :
    LoopStep s s' :=
  ⟨0, (if_pos ha).trans h⟩

theorem alive_of_thread {pc : LoopPc} (hpc : s.thread = some pc) (hf : fatal pc = none) :
    alive s = true := by
  cases pc with
  | terminated cmd f => cases hf
  | _ => simp [alive, hpc]

theorem commands_loop [IJournal J] {now : Int64} (h : LoopMove now s s') :
    commands s' = commands s := by
  cases h with
  | exit hpc hq hs => simp [commands, pcOf, hpc, inHand]
  | take cmd items hpc hq => simp [commands, pcOf, hpc, hq, inHand]
  | journal cmd hpc => simp [commands, journalCommand, pcOf, hpc, inHand]
  | apply cmd ts core hpc hr => simp [commands, pcOf, hpc, inHand]
  | reject cmd f core hpc hr => simp [commands, pcOf, hpc, inHand]
  | log cmd t ts hpc => simp [commands, pcOf, hpc, inHand]
  | record cmd t ts hpc => simp [commands, pcOf, hpc, inHand]
  | send cmd t ts hpc => simp [commands, pcOf, hpc, inHand]
  | callback cmd t ts hpc => simp [commands, pcOf, hpc, inHand]
  | report cmd hpc => simp [commands, pcOf, hpc, inHand]

theorem commands_run [IJournal J] (h : Reachable LoopStep s s') : commands s' = commands s := by
  apply h.invariant (I := fun s' => commands s' = commands s) rfl
  intro t t' ht _ hs
  obtain ⟨now, hm⟩ := hs.move
  exact (commands_loop hm).trans ht

theorem history_prefix_commands (s : Engine J) : s.trace.history <+: commands s := by
  rw [commands, List.append_assoc]
  exact List.prefix_append _ _

/-- A journaled command among fresh ones is fresh when it is applied. -/
theorem fresh_of_journaled (h : ProcessInvariant base base s) (hfresh : AllFresh s.trace.history)
    (hpc : s.thread = some (.journaled cmd)) : Fresh s.core.book cmd := by
  have h := h.at hpc
  rw [h.history] at hfresh
  rw [h.book]
  exact (allFresh_concat.mp hfresh).2

/-- Among fresh commands no process dies. -/
theorem alive_of_fresh (h : ProcessInvariant base base s) (hfresh : AllFresh s.trace.history) :
    alive s = true := by
  rw [alive]
  split
  · rename_i cmd f hpc
    have h := h.at hpc
    rw [h.history] at hfresh
    have hrejected := h.rejected cmd rfl
    rw [h.book] at hrejected
    exact absurd (allFresh_concat.mp hfresh).2 hrejected
  · rfl

/-! ## The loop drains its queue -/

/-- The loop gets to the top of its body without another look at the queue. -/
def Returns [IJournal J] (s : Engine J) : Prop :=
  ∃ s', Reachable LoopStep s s' ∧ s'.thread = some .ready ∧ s'.queue = s.queue

theorem Returns.step [IJournal J] (h : LoopStep s s') (hq : s'.queue = s.queue)
    (h' : Returns s') : Returns s := by
  obtain ⟨t, ht, hready, hqueue⟩ := h'
  exact ⟨t, .trans (.next .initial trivial h) ht, hready, hqueue.trans hq⟩

theorem Returns.ready [IJournal J] (h : s.thread = some .ready) : Returns s := ⟨s, .initial, h, rfl⟩

/-- Steps until the trades in hand are published. -/
def publishingSteps : LoopPc → ℕ
  | .publishing _ ts => 4 * ts.length + 1
  | .logged _ _ ts => 4 * ts.length + 4
  | .recorded _ _ ts => 4 * ts.length + 3
  | .sent _ _ ts => 4 * ts.length + 2
  | _ => 0

theorem publishing_returns [IJournal J] {s : Engine J} {pc : LoopPc} (hpc : s.thread = some pc)
    (hpub : publishing pc = some cmd) : Returns s := by
  cases pc with
  | publishing cmd ts =>
    cases ts with
    | nil =>
      have hstep := loopStep_of (alive_of_thread hpc rfl) (by rw [loopStep, hpc])
      exact .step hstep rfl (.ready rfl)
    | cons t ts =>
      have hstep := loopStep_of (alive_of_thread hpc rfl) (by rw [loopStep, hpc])
      exact .step hstep rfl (publishing_returns rfl hpub)
  | logged cmd t ts =>
    have hstep := loopStep_of (alive_of_thread hpc rfl) (by rw [loopStep, hpc])
    exact .step hstep rfl (publishing_returns rfl hpub)
  | recorded cmd t ts =>
    have hstep := loopStep_of (alive_of_thread hpc rfl) (by rw [loopStep, hpc])
    exact .step hstep rfl (publishing_returns rfl hpub)
  | sent cmd t ts =>
    have hstep := loopStep_of (alive_of_thread hpc rfl) (by rw [loopStep, hpc])
    exact .step hstep rfl (publishing_returns rfl hpub)
  | _ => cases hpub
termination_by publishingSteps pc
decreasing_by all_goals subst_vars; simp +arith [publishingSteps]

theorem process_run [IJournal J] (hp : ProcessInvariant old base s)
    (h : Reachable LoopStep s s') : ProcessInvariant old base s' := by
  apply h.invariant (I := ProcessInvariant old base) hp
  intro t t' ht _ hs
  obtain ⟨now, hm⟩ := hs.move
  exact invariant_loop ht hm

theorem journaled_returns [IJournal J] (hp : ProcessInvariant base base s)
    (hfresh : AllFresh (commands s)) (hpc : s.thread = some (.journaled cmd)) : Returns s := by
  have hf := fresh_of_journaled hp (hfresh.shorten (history_prefix_commands s)) hpc
  have hstep := loopStep_of (alive_of_thread hpc rfl) (by rw [loopStep, hpc])
  rw [applyStep_ok hp.reachable_book hf] at hstep
  exact .step hstep rfl (publishing_returns rfl rfl)

/-- No thread that works on fresh commands is stuck. -/
theorem working_returns [IJournal J] (hp : ProcessInvariant base base s)
    (hfresh : AllFresh (commands s)) (hw : Working s) : Returns s := by
  cases hpc : s.thread with
  | none => exact absurd hpc hw.1
  | some pc =>
    cases pc with
    | ready => exact .ready hpc
    | popped cmd =>
      have hmove : LoopMove 0 s (journalCommand s cmd 0) := .journal cmd hpc
      have hstep := loopStep_of (alive_of_thread hpc rfl) (by rw [loopStep, hpc])
      exact .step hstep rfl (journaled_returns (invariant_loop hp hmove)
        ((commands_loop hmove).symm ▸ hfresh) rfl)
    | journaled cmd => exact journaled_returns hp hfresh hpc
    | publishing cmd ts => exact publishing_returns hpc rfl
    | logged cmd t ts => exact publishing_returns hpc rfl
    | recorded cmd t ts => exact publishing_returns hpc rfl
    | sent cmd t ts => exact publishing_returns hpc rfl
    | finished => exact absurd hpc hw.2
    | terminated cmd f =>
      have halive := alive_of_fresh hp (hfresh.shorten (history_prefix_commands s))
      simp [alive, hpc] at halive

/-- Every queued command is taken, journaled and applied. -/
theorem drains [IJournal J] (hp : ProcessInvariant base base s) (hfresh : AllFresh (commands s))
    (hw : Working s) :
    ∃ s', Reachable LoopStep s s' ∧ s'.thread = some .ready ∧ s'.queue.items = [] := by
  induction hitems : s.queue.items generalizing s with
  | nil =>
    obtain ⟨t, hrun, hready, hqueue⟩ := working_returns hp hfresh hw
    exact ⟨t, hrun, hready, hqueue ▸ hitems⟩
  | cons cmd items ih =>
    obtain ⟨t, hrun, hready, hqueue⟩ := working_returns hp hfresh hw
    have ht : t.queue.items = cmd :: items := hqueue ▸ hitems
    have hpop : loopStep 0 t = some { t with
        queue := { t.queue with items := items }
        thread := some (.popped cmd) } := by
      simp [loopStep, hready, ThreadSafeQueue.pop, ht]
    have hstep := loopStep_of (alive_of_thread hready rfl) hpop
    have hrun' := hrun.trans (.next .initial trivial hstep)
    obtain ⟨s', hrest, hlast⟩ := ih (process_run hp hrun')
      ((commands_run hrun').symm ▸ hfresh) ⟨by simp, by simp⟩ rfl
    exact ⟨s', hrun'.trans hrest, hlast⟩

end

/-! ## Isolation -/

variable {s : Engine InMemoryJournal}

/-- What it takes for a rejection to be the affair of one command. -/
structure Isolated (s : Engine InMemoryJournal) : Prop where
  survives : alive s = true
  rejects : ∀ now cmd f c, s.thread = some (.journaled cmd) →
    (applyCommand cmd).run s.core = .error f c → ∃ s', loopStep now s = some s' ∧
      alive s' = true ∧ s'.core.book = s.core.book ∧ s'.core.tradeLog = s.core.tradeLog
  processes : Working s → ∃ s', Reachable LoopStep s s' ∧ s'.thread = some .ready ∧
    s'.queue.items = [] ∧ s'.trace.history = commands s
  replays : ∀ s', Reachable LoopStep s s' →
    ∃ c, (recover s'.journal.events).run freshCore = .ok () c

/-- No command journaled so far was rejected, and none that the working loop has yet to
journal will be. -/
def NoneRejected (s : Engine InMemoryJournal) : Prop :=
  AllFresh s.trace.history ∧ (Working s → AllFresh (commands s))

theorem records_run {s' : Engine InMemoryJournal} (h : LivesInvariant s)
    (hrun : Reachable LoopStep s s') : RecordsAll s'.trace.history s'.journal.events := by
  apply hrun.invariant (I := fun s => RecordsAll s.trace.history s.journal.events) h.records
  intro t t' ht _ hs
  obtain ⟨now, hnext⟩ := hs
  exact records_step ht (.event (.loop now) hnext)

theorem idle_run {s' : Engine InMemoryJournal} (hw : ¬ Working s) (hrun : Reachable LoopStep s s') :
    s' = s := by
  apply hrun.invariant (I := fun s' => s' = s) rfl
  intro t t' ht _ hs
  obtain ⟨now, hm⟩ := hs.move
  exact absurd (ht ▸ (loop_frame hm).working) hw

theorem isolated_of_noneRejected (hinv : LivesInvariant s) (h : NoneRejected s) : Isolated s := by
  obtain ⟨hfresh, hahead⟩ := h
  obtain ⟨old, hp, _, _⟩ := hinv.process hfresh
  constructor
  · exact alive_of_fresh hp hfresh
  · intro now cmd f c hpc herr
    rw [applyCommand_ok hp.reachable_book (fresh_of_journaled hp hfresh hpc)] at herr
    cases herr
  · intro hw
    obtain ⟨s', hrun, hready, hempty⟩ := drains hp (hahead hw) hw
    refine ⟨s', hrun, hready, hempty, ?_⟩
    rw [← commands_run hrun, commands, pcOf, hready, hempty]
    simp [inHand]
  · intro s' hrun
    apply (recover_iff (records_run hinv hrun)).mpr
    by_cases hw : Working s
    · have hall := hahead hw
      rw [← commands_run hrun] at hall
      exact hall.shorten (history_prefix_commands s')
    · exact idle_run hw hrun ▸ hfresh

/-- A rejected command leaves a journal that replays no more. -/
theorem noneRejected_of_isolated (hinv : LivesInvariant s) (h : Isolated s) : NoneRejected s := by
  refine ⟨(recover_iff hinv.records).mp (h.replays s .initial), ?_⟩
  intro hw
  obtain ⟨s', hrun, _, _, hhistory⟩ := h.processes hw
  exact hhistory ▸ (recover_iff (records_run hinv hrun)).mp (h.replays s' hrun)

/-- Rejections are isolated exactly in the runs that have none. -/
theorem isolated_iff (h : Reachable Lives (initial ⟨[]⟩) s) : Isolated s ↔ NoneRejected s :=
  ⟨noneRejected_of_isolated (lives_invariant h), isolated_of_noneRejected (lives_invariant h)⟩

/-- Order 1 rests, and then an order on the same side is applied. -/
def twoSells (second : OrderId) : List Event :=
  [.start, .control, .control, .control,
    .push 1 (.submit (NewOrder.limit 1 1 .sell 5 five_pos .hundred)),
    .push 2 (.submit (NewOrder.limit second 2 .sell 3 three_pos .hundred))] ++
  List.replicate 7 (.loop 0)

theorem twoSells_distinct : (events (initial ⟨[]⟩) (twoSells 2)).map
    (fun s : Engine InMemoryJournal => ((commands s).length - s.trace.history.length,
      ((recover s.journal.events).run freshCore matches .ok _ _))) = some (0, true) := by
  decide +kernel

theorem isolated_twoSells : ∃ s, events (initial ⟨[]⟩) (twoSells 2) = some s ∧ Isolated s := by
  obtain ⟨s, hs, hobs⟩ := Option.map_eq_some_iff.mp twoSells_distinct
  obtain ⟨hlen, hok⟩ := Prod.mk.inj hobs
  have hreach := lives_of_events hs
  have hfresh := allFresh_of_replay (lives_invariant hreach).records hok
  have hall : commands s = s.trace.history := by
    have hpre := history_prefix_commands s
    exact (hpre.eq_of_length_le (Nat.le_of_sub_eq_zero hlen)).symm
  exact ⟨s, hs, (isolated_iff hreach).mpr ⟨hfresh, fun _ => hall ▸ hfresh⟩⟩

theorem twoSells_same : (events (initial ⟨[]⟩) (twoSells 1)).map
    (fun s : Engine InMemoryJournal => (alive s,
      ((recover s.journal.events).run freshCore matches .error _ _))) = some (false, true) := by
  decide +kernel

/-- The second order has the id of the one that rests: the process ends, and its journal
stops every recovery. -/
theorem rejection_not_isolated :
    ¬ ∀ s, Reachable Lives (initial (⟨[]⟩ : InMemoryJournal)) s → Isolated s := by
  intro hall
  obtain ⟨s, hs, hobs⟩ := Option.map_eq_some_iff.mp twoSells_same
  have hdead := (hall s (lives_of_events hs)).survives
  rw [(Prod.mk.inj hobs).1] at hdead
  cases hdead

end Isolation
