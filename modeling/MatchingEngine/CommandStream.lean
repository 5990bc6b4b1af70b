import MatchingEngine.EngineInvariant

/-! # One ordered command stream

Any number of producers push, one thread starts and stops the engine, and the matching
thread applies every push once, in the order of the pushes. -/
namespace CommandStream

open EngineTypes
open Orders
open OrderBook
open BookRuns
open Journal
open EngineMachine
open EngineMoves
open EngineInvariant
open Transitions

variable {J : Type} {s s' : Engine J}

/-- When `stop()` returns. `mark` pushes were complete when it was called. -/
structure Stopped (s' : Engine J) (mark : ℕ) : Prop where
  drained : (s'.trace.pushed.take mark).map Prod.snd <+: s'.trace.applied
  settled : s'.trace.history = s'.trace.applied
  exact : s'.trace.pushed.length = mark → s'.trace.applied = s'.trace.pushed.map Prod.snd
  log : s'.core.tradeLog = trades emptyBook (calls s'.trace.applied)

structure OneStream [IJournal J] (s : Engine J) : Prop where
  journaled : s.trace.history <+: s.trace.pushed.map Prod.snd
  applied : s.trace.applied <+: s.trace.history
  behind : s.trace.history.length ≤ s.trace.applied.length + 1
  /-- The applied commands are the first pushes, so each producer's are in its own order. -/
  producers : ∃ n, s.trace.applied = (s.trace.pushed.take n).map Prod.snd ∧
    ∀ producer, (s.trace.pushed.take n).filter (fun a => a.1 = producer) <+:
      s.trace.pushed.filter fun a => a.1 = producer
  stopped : ∀ mark target s', s.control = .stopWait mark target → Step s s' →
    s'.control = .idle → Stopped s' mark

theorem unapplied_length (pc : LoopPc) : (unapplied pc).length ≤ 1 := by
  cases pc <;> simp [unapplied]

theorem applied_eq_take (h : ProcessInvariant [] [] s) :
    s.trace.applied = (s.trace.pushed.take s.trace.applied.length).map Prod.snd := by
  rw [List.map_take, h.stream]
  simp

/-- The only step out of the last stage of `stop` that ends it is its return. -/
theorem stop_returns [IJournal J] {mark target : ℕ} (hc : s.control = .stopWait mark target)
    (hs : Step s s') (hidle : s'.control = .idle) : s' = { s with control := .idle } := by
  cases step_cases hs with
  | control hm =>
    cases hm with
    | stopWait mark target hc' hf => rfl
    | startLaunch hc' =>
      rw [hc] at hc'
      cases hc'
    | _ => cases hidle
  | loop now hm =>
    rw [(loop_frame hm).control, hc] at hidle
    cases hidle
  | start hc' hr => simp [hc] at hc'
  | stop hc' hr => simp [hc] at hc'
  | _ =>
    rw [hc] at hidle
    cases hidle

theorem stopped_of_wait (hp : ProcessInvariant [] [] s) (hc : ControlInvariant s)
    {mark target : ℕ} (hw : s.control = .stopWait mark target) :
    Stopped { s with control := .idle } mark := by
  simp only [ControlInvariant, hw] at hc
  obtain ⟨_, hthread, hmark⟩ := hc
  have hstream := hp.stream
  have hhistory := hp.history
  have hlog := hp.log
  simp only [pcOf, hthread, Option.getD_none, unapplied, inHand, pending, List.append_nil,
    List.nil_append] at hstream hhistory hlog
  constructor
  · rw [List.map_take, hstream, List.take_append_of_le_length hmark]
    exact List.take_prefix _ _
  · exact hhistory
  · intro hlen
    have hl := congrArg List.length hstream
    rw [List.length_map, List.length_append] at hl
    have hlen' : s.trace.pushed.length = mark := hlen
    have hnil : s.queue.items = [] := List.eq_nil_of_length_eq_zero (by omega)
    rw [hnil, List.append_nil] at hstream
    exact hstream.symm
  · exact hlog

/-- The commands journaled and applied are the first pushes, none lost and none twice; and a
`stop()` that returns has applied every push made before it was called. -/
theorem one_ordered_stream [IJournal J] (j : J) (h : Reachable Step (initial j) s) :
    OneStream s := by
  obtain ⟨hp, hc⟩ := reachable_invariant h
  constructor
  · rw [hp.history, hp.stream, List.nil_append, List.append_assoc]
    exact List.prefix_append _ _
  · rw [hp.history]
    exact List.prefix_append _ _
  · have hlen := unapplied_length (pcOf s)
    rw [hp.history, List.nil_append, List.length_append]
    omega
  · exact ⟨_, applied_eq_take hp, fun _ => (List.take_prefix _ _).filter _⟩
  · intro mark target s' hw hs hidle
    rw [stop_returns hw hs hidle]
    exact stopped_of_wait hp hc hw

/-- `stop()` is called on an empty queue, and two pushes complete before its stop flag is set. -/
def racedStop : List Event :=
  [.start, .control, .control, .control, .stop,
    .push 1 (.submit (NewOrder.limit 1 1 .sell 5 five_pos .hundred)),
    .push 2 (.submit (NewOrder.limit 2 2 .buy 5 five_pos .hundred)), .control] ++
  List.replicate 13 (.loop 0) ++ [.control, .control]

theorem racedStop_waits : (events (initial NullJournal.nullJournal) racedStop).map
    (fun s => (s.control, s.core.tradeLog)) = some (.stopWait 0 0, [⟨2, 1, .hundred, 5⟩]) := by
  decide +kernel

theorem one_ordered_stream_raced : ∃ s,
    events (initial NullJournal.nullJournal) racedStop = some s ∧ s.control = .stopWait 0 0 ∧ OneStream s := by
  obtain ⟨s, hs, hobs⟩ := Option.map_eq_some_iff.mp racedStop_waits
  exact ⟨s, hs, congrArg Prod.fst hobs, one_ordered_stream _ (events_reachable .initial hs)⟩

/-- The trade log of a stopped engine may hold trades of commands pushed while it stopped. -/
theorem stop_applies_raced_pushes : ¬ ∀ (s s' : Engine NullJournal) (mark target : ℕ),
    Reachable Step (initial .nullJournal) s → s.control = .stopWait mark target → Step s s' →
    s'.control = .idle →
    s'.core.tradeLog = trades emptyBook (calls ((s.trace.pushed.take mark).map Prod.snd)) := by
  intro hall
  obtain ⟨s, hs, hobs⟩ := Option.map_eq_some_iff.mp racedStop_waits
  obtain ⟨hcontrol, hlog⟩ := Prod.mk.inj hobs
  have hreturn : next s .control = some { s with control := .idle } := by
    have hc := (reachable_invariant (events_reachable .initial hs)).2
    simp only [ControlInvariant, hcontrol] at hc
    have halive : alive s = true := by simp [alive, hc.2.1]
    simp [next, halive, controlStep, hcontrol, IJournal.flushed]
  have hempty := hall s _ 0 0 (events_reachable .initial hs) hcontrol (.event .control hreturn) rfl
  have hnone : s.core.tradeLog = [] := hempty
  rw [hlog] at hnone
  cases hnone

end CommandStream
