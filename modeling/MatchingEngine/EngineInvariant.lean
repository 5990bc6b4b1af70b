import MatchingEngine.EngineMoves

/-! # Invariants of the running engine

`ProcessInvariant old base` speaks of one process: `base` are the commands whose effects it
started with, `old` those journaled before it. -/
namespace EngineInvariant

open EngineTypes
open Orders
open OrderBook
open PriceTimeBook
open BookInvariant
open BookRefinement
open BookRuns
open Journal
open EngineMachine
open EngineMoves
open Transitions

def calls (cmds : List Command) : List Call := cmds.map Command.call

/-- Book and trade log after the commands, applied in order from empty. -/
def stateAt (cmds : List Command) : Book × List Trade :=
  (run emptyBook (calls cmds), trades emptyBook (calls cmds))

/-- The command does not submit an id that is resting. -/
def Fresh (b : Book) (cmd : Command) : Prop :=
  ∀ order, cmd = .submit order → ∀ s, ∀ x ∈ resting b s, x.order.id ≠ order.1.id

/-! ## One command on the book -/

theorem onBook_ok {α : Type} {m : BookM α} {c : Core} {a : α} {b : Book}
    (h : m.run c.book = .ok a b) : (onBook m).run c = .ok a { c with book := b } := by
  rw [EStateM.run]
  simp only [onBook, h]

theorem onBook_error {α : Type} {m : BookM α} {c : Core} {f : Failure} {b : Book}
    (h : m.run c.book = .error f b) : (onBook m).run c = .error f { c with book := b } := by
  rw [EStateM.run]
  simp only [onBook, h]

theorem fresh_iff {b : Book} (h : Invariant b) (order : NewOrder) :
    Fresh b (.submit order) ↔ b.ownedOrders order.1.id = none := by
  rw [← Option.not_isSome_iff_eq_none, isSome_owned_iff_resting h]
  constructor
  · rintro hf ⟨s, x, hx, hid⟩
    exact hf order rfl s x hx hid
  · intro hn order' ho s x hx hid
    cases ho
    exact hn ⟨s, x, hx, hid⟩

theorem fresh_cancel (b : Book) (id : OrderId) : Fresh b (.cancel id) := nofun

/-- A command that is fresh is applied as its call. -/
theorem applyCommand_ok {c : Core} {cmd : Command} (h : Invariant c.book)
    (hf : Fresh c.book cmd) : (applyCommand cmd).run c =
      .ok (returned ((perform cmd.call).run c.book)) { c with book := step c.book cmd.call } := by
  cases cmd with
  | submit order =>
    obtain ⟨b', hrun, _⟩ := addOrder_refines h order.2 ((fresh_iff h order).mp hf)
    have hp : (perform (Command.submit order).call).run c.book =
        .ok (Ladder.trades (resting c.book) order.1) b' := hrun
    rw [step, hp]
    exact onBook_ok hrun
  | cancel id =>
    obtain ⟨b', hrun, _⟩ := cancelOrder_refines h id
    have hp : (perform (Command.cancel id).call).run c.book = .ok [] b' := by
      rw [Command.call, perform, bind_ok hrun]
      rfl
    rw [step, hp, applyCommand, bind_ok (onBook_ok hrun)]
    rfl

/-- A command that is not fresh is rejected, and changes nothing. -/
theorem applyCommand_rejected {c : Core} {cmd : Command} (h : Invariant c.book)
    (hf : ¬ Fresh c.book cmd) :
    (applyCommand cmd).run c = .error (.invalidArgument "Order ID is already active") c := by
  cases cmd with
  | submit order =>
    rw [fresh_iff h, ← ne_eq, ← Option.isSome_iff_ne_none] at hf
    exact onBook_error (addOrder_rejected hf)
  | cancel id => exact absurd (fresh_cancel c.book id) hf

/-- What an applied command has done. -/
theorem applied_fresh {c c' : Core} {cmd : Command} {ts : List Trade} (h : Invariant c.book)
    (hr : (applyCommand cmd).run c = .ok ts c') : Fresh c.book cmd ∧
      ts = returned ((perform cmd.call).run c.book) ∧
      c' = { c with book := step c.book cmd.call } := by
  by_cases hf : Fresh c.book cmd
  · rw [applyCommand_ok h hf] at hr
    cases hr
    exact ⟨hf, rfl, rfl⟩
  · rw [applyCommand_rejected h hf] at hr
    cases hr

/-- A command that was rejected was not fresh, and nothing has changed. -/
theorem rejected_unchanged {c c' : Core} {cmd : Command} {f : Failure} (h : Invariant c.book)
    (hr : (applyCommand cmd).run c = .error f c') : ¬ Fresh c.book cmd ∧ c' = c := by
  by_cases hf : Fresh c.book cmd
  · rw [applyCommand_ok h hf] at hr
    cases hr
  · rw [applyCommand_rejected h hf] at hr
    cases hr
    exact ⟨hf, rfl⟩

/-! ## The invariant of one process -/

section

variable {J : Type} {old base : List Command} {s s' : Engine J}

/-- How many of the applied commands have been published in full. -/
def settled (applied : List Command) (pc : LoopPc) : ℕ :=
  if (publishing pc).isSome then applied.length - 1 else applied.length

/-- The states after each of the first `n` commands, from the start on. -/
def milestones (base applied : List Command) (n : ℕ) : List (Book × List Trade) :=
  (List.range (n + 1)).map fun i => stateAt (base ++ applied.take i)

theorem milestones_getLast (base applied : List Command) (n : ℕ) :
    (milestones base applied n).getLast? = some (stateAt (base ++ applied.take n)) := by
  simp [milestones, List.range_succ]

theorem mem_milestones (base applied : List Command) {i n : ℕ} (h : i ≤ n) :
    stateAt (base ++ applied.take i) ∈ milestones base applied n :=
  List.mem_map.mpr ⟨i, List.mem_range.mpr (Nat.lt_succ_of_le h), rfl⟩

/-- What core, trace and queue owe each other while the matching thread is at `pc`. -/
structure Account (old base : List Command) (core : Core) (trace : Trace)
    (items : List Command) (pc : LoopPc) : Prop where
  /-- Every completed push is applied, being worked on, or queued. -/
  stream : trace.pushed.map Prod.snd = trace.applied ++ unapplied pc ++ inHand pc ++ items
  history : trace.history = old ++ trace.applied ++ unapplied pc
  book : core.book = (stateAt (base ++ trace.applied)).1
  log : core.tradeLog ++ pending pc = (stateAt (base ++ trace.applied)).2
  inFlight : ∀ cmd, publishing pc = some cmd → trace.applied.getLast? = some cmd
  begun : ∀ cmd, publishing pc = some cmd →
    (stateAt (base ++ trace.applied.dropLast)).2 <+: core.tradeLog
  logged : ∀ t, current pc = some t → core.tradeLog[core.tradeLog.length - 1]? = some t
  passed : trace.passed = milestones base trace.applied (settled trace.applied pc)
  rejected : ∀ cmd, fatal pc = some cmd → ¬ Fresh core.book cmd

abbrev ProcessInvariant (old base : List Command) (s : Engine J) : Prop :=
  Account old base s.core s.trace s.queue.items (pcOf s)

theorem ProcessInvariant.reachable_book (h : ProcessInvariant old base s) : Invariant s.core.book :=
  h.book ▸ run_invariant _

theorem ProcessInvariant.at (h : ProcessInvariant old base s) {pc : LoopPc}
    (hpc : s.thread = some pc) : Account old base s.core s.trace s.queue.items pc := by
  have hp : pcOf s = pc := by
    rw [pcOf, hpc]
    rfl
  exact hp ▸ h

section

variable {core : Core} {trace : Trace} {items : List Command} {pc : LoopPc}

/-- A thread that publishes nothing owes nothing for it. -/
theorem Account.of_idle (hpub : publishing pc = none) (hcur : current pc = none)
    (hstream : trace.pushed.map Prod.snd = trace.applied ++ unapplied pc ++ inHand pc ++ items)
    (hhistory : trace.history = old ++ trace.applied ++ unapplied pc)
    (hbook : core.book = (stateAt (base ++ trace.applied)).1)
    (hlog : core.tradeLog ++ pending pc = (stateAt (base ++ trace.applied)).2)
    (hpassed : trace.passed = milestones base trace.applied trace.applied.length)
    (hrejected : ∀ cmd, fatal pc = some cmd → ¬ Fresh core.book cmd) :
    Account old base core trace items pc where
  stream := hstream
  history := hhistory
  book := hbook
  log := hlog
  inFlight cmd hc := by simp [hpub] at hc
  begun cmd hc := by simp [hpub] at hc
  logged t hc := by simp [hcur] at hc
  passed := by simpa [settled, hpub] using hpassed
  rejected := hrejected

/-- The clauses that matter while `cmd` is being published. -/
theorem Account.of_publishing {cmd : Command} (hpub : publishing pc = some cmd)
    (halive : fatal pc = none)
    (hstream : trace.pushed.map Prod.snd = trace.applied ++ unapplied pc ++ inHand pc ++ items)
    (hhistory : trace.history = old ++ trace.applied ++ unapplied pc)
    (hbook : core.book = (stateAt (base ++ trace.applied)).1)
    (hlog : core.tradeLog ++ pending pc = (stateAt (base ++ trace.applied)).2)
    (hflight : trace.applied.getLast? = some cmd)
    (hbegun : (stateAt (base ++ trace.applied.dropLast)).2 <+: core.tradeLog)
    (hlogged : ∀ t, current pc = some t → core.tradeLog[core.tradeLog.length - 1]? = some t)
    (hpassed : trace.passed = milestones base trace.applied (trace.applied.length - 1)) :
    Account old base core trace items pc where
  stream := hstream
  history := hhistory
  book := hbook
  log := hlog
  inFlight cmd' hc := by rwa [← hc, hpub]
  begun _ _ := hbegun
  logged := hlogged
  passed := by simpa [settled, hpub] using hpassed
  rejected cmd' hc := by simp [halive] at hc

end

theorem not_fatal {pc : LoopPc} {b : Book} (h : fatal pc = none) :
    ∀ cmd, fatal pc = some cmd → ¬ Fresh b cmd := by
  simp [h]

theorem initial_invariant (j : J) : ProcessInvariant [] [] (initial j) := by
  exact .of_idle rfl rfl rfl rfl rfl rfl rfl (not_fatal rfl)

theorem stateAt_concat (cmds : List Command) (cmd : Command) : stateAt (cmds ++ [cmd]) =
    (step (stateAt cmds).1 cmd.call,
      (stateAt cmds).2 ++ returned ((perform cmd.call).run (stateAt cmds).1)) := by
  simp only [stateAt, calls, List.map_append, List.map_cons, List.map_nil, run_concat,
    trades_append]

theorem applyStep_ok (h : Invariant s.core.book) {cmd : Command} (hf : Fresh s.core.book cmd) :
    applyStep s cmd = { s with
      core := { s.core with book := step s.core.book cmd.call }
      thread := some (.publishing cmd (returned ((perform cmd.call).run s.core.book)))
      trace := { s.trace with applied := s.trace.applied ++ [cmd] } } := by
  simp only [applyStep, applyCommand_ok h hf]

section

variable {core : Core} {trace : Trace} {items : List Command} {cmd : Command}

theorem invariant_apply (h : Account old base core trace items (.journaled cmd)) :
    Account old base { core with book := step core.book cmd.call }
      { trace with applied := trace.applied ++ [cmd] } items
      (.publishing cmd (returned ((perform cmd.call).run core.book))) := by
  have hbook := h.book
  have hlog := h.log
  have hstate := stateAt_concat (base ++ trace.applied) cmd
  simp only [pending, List.append_nil] at hlog
  rw [List.append_assoc, ← hbook, ← hlog] at hstate
  apply Account.of_publishing rfl rfl
  · simpa [unapplied, inHand] using h.stream
  · simpa [unapplied] using h.history
  · simp only [hstate]
  · simp only [hstate, pending]
  · exact List.getLast?_concat
  · simp only [List.dropLast_concat, ← hlog, List.prefix_rfl]
  · intro t ht
    cases ht
  · rw [h.passed, List.length_append]
    apply List.map_congr_left
    intro i hi
    have hle : i ≤ trace.applied.length := Nat.lt_succ_iff.mp (List.mem_range.mp hi)
    rw [List.take_append_of_le_length hle]

theorem invariant_log {t : Trade} {ts : List Trade}
    (h : Account old base core trace items (.publishing cmd (t :: ts))) :
    Account old base { core with tradeLog := core.tradeLog ++ [t] } trace items
      (.logged cmd t ts) := by
  refine .of_publishing rfl rfl h.stream h.history h.book ?_ (h.inFlight cmd rfl)
    ((h.begun cmd rfl).trans (List.prefix_append _ _)) ?_ h.passed
  · simpa [pending] using h.log
  · intro u hu
    cases hu
    simp

theorem invariant_report {call : SinkCall}
    (h : Account old base core trace items (.publishing cmd [])) :
    Account old base core { trace with
      sink := trace.sink ++ [call]
      passed := trace.passed ++ [(core.book, core.tradeLog)] } items .ready := by
  refine .of_idle rfl rfl h.stream h.history h.book h.log ?_ (not_fatal rfl)
  have hnow : stateAt (base ++ trace.applied) = (core.book, core.tradeLog) := by
    have hlog := h.log
    simp only [pending, List.append_nil] at hlog
    rw [h.book, hlog]
  have hone : trace.applied.length - 1 + 1 = trace.applied.length := by
    apply Nat.sub_add_cancel
    rw [Nat.one_le_iff_ne_zero, Ne, List.length_eq_zero_iff]
    intro hnil
    have hlast := h.inFlight cmd rfl
    rw [hnil] at hlast
    cases hlast
  have hpassed : trace.passed = milestones base trace.applied (trace.applied.length - 1) := h.passed
  simp only [hpassed, milestones, hone, List.range_succ, List.map_append, List.map_singleton,
    List.take_length, hnow]

end

theorem invariant_loop [IJournal J] {now : Int64} (h : ProcessInvariant old base s)
    (hm : LoopMove now s s') : ProcessInvariant old base s' := by
  cases hm with
  | exit hpc hq hs =>
    have h := h.at hpc
    exact .of_idle rfl rfl h.stream h.history h.book h.log h.passed (not_fatal rfl)
  | take cmd items hpc hq =>
    have h := h.at hpc
    refine .of_idle rfl rfl ?_ h.history h.book h.log h.passed (not_fatal rfl)
    simpa [pcOf, unapplied, inHand, hq] using h.stream
  | journal cmd hpc =>
    have h := h.at hpc
    refine .of_idle rfl rfl ?_ ?_ h.book h.log h.passed (not_fatal rfl)
    · simpa [journalCommand, pcOf, unapplied, inHand] using h.stream
    · simp [journalCommand, pcOf, unapplied, h.history]
  | apply cmd ts core hpc hr =>
    obtain ⟨_, rfl, rfl⟩ := applied_fresh h.reachable_book hr
    exact invariant_apply (h.at hpc)
  | reject cmd f core hpc hr =>
    obtain ⟨hf, rfl⟩ := rejected_unchanged h.reachable_book hr
    have h := h.at hpc
    refine .of_idle rfl rfl h.stream h.history h.book h.log h.passed ?_
    intro cmd' hc
    cases hc
    exact hf
  | log cmd t ts hpc => exact invariant_log (h.at hpc)
  | record cmd t ts hpc =>
    have h := h.at hpc
    exact .of_publishing rfl rfl h.stream h.history h.book h.log (h.inFlight cmd rfl)
      (h.begun cmd rfl) h.logged h.passed
  | send cmd t ts hpc =>
    have h := h.at hpc
    exact .of_publishing rfl rfl h.stream h.history h.book h.log (h.inFlight cmd rfl)
      (h.begun cmd rfl) h.logged h.passed
  | callback cmd t ts hpc =>
    have h := h.at hpc
    refine .of_publishing rfl rfl h.stream h.history h.book h.log (h.inFlight cmd rfl)
      (h.begun cmd rfl) ?_ h.passed
    intro u hu
    cases hu
  | report cmd hpc => exact invariant_report (h.at hpc)

end

/-! ## The controlling thread -/

section

variable {J : Type} {old base : List Command} {s s' : Engine J}

/-- What the control state says about `running_`, the thread and the stop flag. -/
def ControlInvariant (s : Engine J) : Prop :=
  match s.control with
  | .idle => if s.running then Working s ∧ s.queue.stopping = false else s.thread = none
  | .startJoin | .startReset => s.running = false ∧ s.thread = none
  | .startLaunch => s.running = false ∧ s.thread = none ∧ s.queue.stopping = false
  | .stopQueue mark => s.running = false ∧ Working s ∧ s.queue.stopping = false ∧
      mark ≤ s.trace.pushed.length
  | .stopJoin mark => s.running = false ∧ s.thread ≠ none ∧ s.queue.stopping = true ∧
      mark ≤ s.trace.pushed.length ∧ (s.thread = some .finished → mark ≤ s.trace.applied.length)
  | .stopFlush mark | .stopWait mark _ => s.running = false ∧ s.thread = none ∧
      mark ≤ s.trace.applied.length

/-- Once the thread has drained the queue, every push has been applied. -/
theorem drained (h : ProcessInvariant old base s) (hpc : s.thread = some .ready)
    (hq : s.queue.items = []) : s.trace.applied.length = s.trace.pushed.length := by
  have hlen := congrArg List.length h.stream
  simpa [pcOf, hpc, unapplied, inHand, hq] using hlen.symm

theorem control_loop [IJournal J] {now : Int64} (hp : ProcessInvariant old base s)
    (hc : ControlInvariant s) (hm : LoopMove now s s') : ControlInvariant s' := by
  have hf := loop_frame hm
  have hworking : s.queue.stopping = false → Working s' := by
    intro hstop
    refine ⟨hf.thread, fun hlast => ?_⟩
    have hs := (hf.last hlast).2.2.1
    rw [hstop] at hs
    cases hs
  unfold ControlInvariant at hc ⊢
  rw [hf.control, hf.running, hf.stopping, hf.pushed]
  cases hcontrol : s.control with
  | idle =>
    simp only [hcontrol] at hc ⊢
    split at hc
    · rename_i hr
      rw [if_pos hr]
      exact ⟨hworking hc.2, hc.2⟩
    · exact absurd hc hf.working.1
  | startJoin =>
    simp only [hcontrol] at hc
    exact absurd hc.2 hf.working.1
  | startReset =>
    simp only [hcontrol] at hc
    exact absurd hc.2 hf.working.1
  | startLaunch =>
    simp only [hcontrol] at hc
    exact absurd hc.2.1 hf.working.1
  | stopQueue mark =>
    simp only [hcontrol] at hc ⊢
    exact ⟨hc.1, hworking hc.2.2.1, hc.2.2⟩
  | stopJoin mark =>
    simp only [hcontrol] at hc ⊢
    obtain ⟨hr, _, hs, hmark, _⟩ := hc
    refine ⟨hr, hf.thread, hs, hmark, ?_⟩
    intro hlast
    obtain ⟨hready, hq, _, happlied⟩ := hf.last hlast
    rw [happlied, drained hp hready hq]
    exact hmark
  | stopFlush mark =>
    simp only [hcontrol] at hc
    exact absurd hc.2.1 hf.working.1
  | stopWait mark target =>
    simp only [hcontrol] at hc
    exact absurd hc.2.1 hf.working.1

/-- A step that leaves core, queue items and trace alone keeps what they owe each other. -/
theorem ProcessInvariant.frame (h : ProcessInvariant old base s) (hcore : s'.core = s.core)
    (hq : s'.queue.items = s.queue.items) (htrace : s'.trace = s.trace)
    (hpc : pcOf s' = pcOf s) : ProcessInvariant old base s' := by
  rw [ProcessInvariant]
  rw [hcore, hq, htrace, hpc]
  exact h

/-- `start` and `stop` step by step. -/
theorem control_step [IJournal J] (hp : ProcessInvariant old base s) (hc : ControlInvariant s)
    (hm : ControlMove s s') : ProcessInvariant old base s' ∧ ControlInvariant s' := by
  cases hm with
  | startJoin hcontrol hj =>
    simp only [ControlInvariant, hcontrol] at hc
    exact ⟨hp.frame rfl rfl rfl (by rw [pcOf_joined hj]; rfl), hc.1, rfl⟩
  | startReset hcontrol =>
    simp only [ControlInvariant, hcontrol] at hc
    exact ⟨hp.frame rfl rfl rfl rfl, hc.1, hc.2, rfl⟩
  | startLaunch hcontrol =>
    simp only [ControlInvariant, hcontrol] at hc
    -- A new thread has nothing in hand, as the missing one had.
    have hfin : pcOf s = .finished := by
      rw [pcOf, hc.2.1]
      rfl
    have h : Account old base s.core s.trace s.queue.items .finished := hfin ▸ hp
    exact ⟨.of_idle rfl rfl h.stream h.history h.book h.log h.passed (not_fatal rfl),
      working_of_thread rfl (by simp), hc.2.2⟩
  | stopQueue mark hcontrol =>
    simp only [ControlInvariant, hcontrol] at hc
    exact ⟨hp.frame rfl rfl rfl rfl, hc.1, hc.2.1.1, rfl, hc.2.2.2,
      fun hf => absurd hf hc.2.1.2⟩
  | stopJoin mark hcontrol hj =>
    simp only [ControlInvariant, hcontrol] at hc
    obtain ⟨hr, hthread, _, _, hmark⟩ := hc
    refine ⟨hp.frame rfl rfl rfl (by rw [pcOf_joined hj]; rfl), hr, rfl, hmark ?_⟩
    cases hpc : s.thread with
    | none => exact absurd hpc hthread
    | some pc =>
      have hfin := pcOf_joined hj
      rw [pcOf, hpc] at hfin
      exact congrArg some hfin
  | stopFlush mark hcontrol =>
    simp only [ControlInvariant, hcontrol] at hc
    exact ⟨hp.frame rfl rfl rfl rfl, hc⟩
  | stopWait mark target hcontrol hf =>
    simp only [ControlInvariant, hcontrol] at hc
    refine ⟨hp.frame rfl rfl rfl rfl, ?_⟩
    simp [ControlInvariant, hc.1, hc.2.1]

theorem control_push {producer : ℕ} {cmd : Command} (hc : ControlInvariant s) :
    ControlInvariant { s with
      queue := s.queue.push cmd
      trace := { s.trace with pushed := s.trace.pushed ++ [(producer, cmd)] } } := by
  unfold ControlInvariant at hc ⊢
  cases hcontrol : s.control with
  | stopQueue mark =>
    simp only [hcontrol, List.length_append] at hc ⊢
    exact ⟨hc.1, hc.2.1, hc.2.2.1, by omega⟩
  | stopJoin mark =>
    simp only [hcontrol, List.length_append] at hc ⊢
    exact ⟨hc.1, hc.2.1, hc.2.2.1, by omega, hc.2.2.2.2⟩
  | _ =>
    simp only [hcontrol] at hc ⊢
    exact hc

theorem step_invariant [IJournal J] (hp : ProcessInvariant old base s) (hc : ControlInvariant s)
    (h : Step s s') : ProcessInvariant old base s' ∧ ControlInvariant s' := by
  cases step_cases h with
  | push producer cmd =>
    obtain ⟨h₁, h₂, h₃, h₄, h₅, h₆, h₇, h₈, h₉⟩ := hp
    refine ⟨⟨?_, h₂, h₃, h₄, h₅, h₆, h₇, h₈, h₉⟩, control_push hc⟩
    simpa [ThreadSafeQueue.push, pcOf] using congrArg (· ++ [cmd]) h₁
  | setOnTrade set => exact ⟨hp.frame rfl rfl rfl rfl, hc⟩
  | none => exact ⟨hp, hc⟩
  | start hidle hr =>
    simp only [ControlInvariant, hidle, hr, Bool.false_eq_true, if_false] at hc
    exact ⟨hp.frame rfl rfl rfl rfl, hr, hc⟩
  | stop hidle hr =>
    simp only [ControlInvariant, hidle, hr, if_true] at hc
    exact ⟨hp.frame rfl rfl rfl rfl, rfl, hc.1, hc.2, le_rfl⟩
  | control hm => exact control_step hp hc hm
  | loop now hm => exact ⟨invariant_loop hp hm, control_loop hp hc hm⟩
  | background j hj => exact ⟨hp.frame rfl rfl rfl rfl, hc⟩

theorem initial_control (j : J) : ControlInvariant (initial j) := rfl

theorem reachable_invariant [IJournal J] {j : J} (h : Reachable Step (initial j) s) :
    ProcessInvariant [] [] s ∧ ControlInvariant s :=
  h.invariant ⟨initial_invariant j, initial_control j⟩
    fun _ _ hi _ hs => step_invariant hi.1 hi.2 hs

/-! ## What has been published -/

/-- What the sink and the callback have been told stands in the trade log. -/
structure Delivered (s : Engine J) : Prop where
  sent : ∀ p t, .onTrade p t ∈ s.trace.sink → s.core.tradeLog[p]? = some t
  calledBack : ∀ p t, (p, t) ∈ s.trace.callbacks → s.core.tradeLog[p]? = some t

theorem Delivered.extend (h : Delivered s) (hlog : s.core.tradeLog <+: s'.core.tradeLog)
    (hsink : ∀ p t, .onTrade p t ∈ s'.trace.sink → .onTrade p t ∈ s.trace.sink)
    (hcalls : s'.trace.callbacks = s.trace.callbacks) : Delivered s' := by
  have hkeep : ∀ {p : ℕ} {t : Trade}, s.core.tradeLog[p]? = some t →
      s'.core.tradeLog[p]? = some t := by
    intro p t hp
    obtain ⟨rest, hrest⟩ := hlog
    obtain ⟨hlt, _⟩ := List.getElem?_eq_some_iff.mp hp
    rw [← hrest, List.getElem?_append_left hlt]
    exact hp
  constructor
  · intro p t hm
    exact hkeep (h.sent p t (hsink p t hm))
  · intro p t hm
    exact hkeep (h.calledBack p t (hcalls ▸ hm))

theorem delivered_move [IJournal J] (hp : ProcessInvariant old base s) (hd : Delivered s)
    (hm : Move s s') : Delivered s' := by
  cases hm with
  | quiet hcore htrace hjournal =>
    obtain ⟨pushed, htrace⟩ := htrace
    refine hd.extend (hcore ▸ List.prefix_rfl) ?_ (htrace ▸ rfl)
    intro p t h
    rw [htrace] at h
    exact h
  | loop now hm =>
    cases hm with
    | exit => exact hd.extend List.prefix_rfl (fun _ _ => id) rfl
    | take => exact hd.extend List.prefix_rfl (fun _ _ => id) rfl
    | journal => exact hd.extend List.prefix_rfl (fun _ _ => id) rfl
    | apply cmd ts core hpc hr =>
      obtain ⟨_, _, rfl⟩ := applied_fresh hp.reachable_book hr
      exact hd.extend List.prefix_rfl (fun _ _ => id) rfl
    | reject cmd f core hpc hr =>
      obtain ⟨_, rfl⟩ := rejected_unchanged hp.reachable_book hr
      exact hd.extend List.prefix_rfl (fun _ _ => id) rfl
    | log => exact hd.extend (List.prefix_append _ _) (fun _ _ => id) rfl
    | record => exact hd.extend List.prefix_rfl (fun _ _ => id) rfl
    | send cmd t ts hpc =>
      have hlast := hp.logged t (by simp [pcOf, hpc, current])
      constructor
      · intro p u hu
        rcases List.mem_append.mp hu with hu | hu
        · exact hd.sent p u hu
        · cases List.mem_singleton.mp hu
          exact hlast
      · exact hd.calledBack
    | callback cmd t ts hpc =>
      have hlast := hp.logged t (by simp [pcOf, hpc, current])
      constructor
      · exact hd.sent
      · intro p u hu
        split at hu
        · rcases List.mem_append.mp hu with hu | hu
          · exact hd.calledBack p u hu
          · cases List.mem_singleton.mp hu
            exact hlast
        · exact hd.calledBack p u hu
    | report =>
      refine hd.extend List.prefix_rfl ?_ rfl
      intro p t h
      rcases List.mem_append.mp h with h | h
      · exact h
      · cases List.mem_singleton.mp h

/-- The trade log is behind what the journaled commands come to. -/
theorem log_behind_history (h : ProcessInvariant base base s) :
    s.core.tradeLog <+: (stateAt s.trace.history).2 := by
  rw [h.history]
  have happlied : s.core.tradeLog <+: (stateAt (base ++ s.trace.applied)).2 :=
    h.log ▸ List.prefix_append _ _
  cases hu : unapplied (pcOf s) with
  | nil => simpa using happlied
  | cons cmd cmds =>
    rw [unapplied_cons hu, stateAt_concat]
    exact happlied.trans (List.prefix_append _ _)

end

end EngineInvariant
