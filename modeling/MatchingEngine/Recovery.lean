import MatchingEngine.EngineInvariant

/-! # Crash recovery

A process ends at any step. The next one replays the journal, and has the state of one book
that applied the journaled commands in order from empty. -/
namespace Recovery

open EngineTypes
open Orders
open OrderBook
open BookInvariant
open BookRefinement
open BookRuns
open Journal
open EngineMachine
open EngineMoves
open EngineInvariant
open Transitions

/-! ## Replaying a log of commands -/

/-- The events are those of the commands, whatever number and time they carry. -/
def RecordsAll (cmds : List Command) (events : List JournalEvent) : Prop :=
  List.Forall₂ (fun cmd ev => ∃ seq now, ev = cmd.event seq now) cmds events

/-- Each command is fresh in the book that the ones before it leave. -/
def AllFresh (cmds : List Command) : Prop :=
  ∀ before cmd after, cmds = before ++ cmd :: after → Fresh (stateAt before).1 cmd

def maxSeq (events : List JournalEvent) (start : UInt64) : UInt64 :=
  events.foldl (fun m ev => max m ev.seq) start

theorem toNat_max (a b : UInt64) : (max a b).toNat = max a.toNat b.toNat := by
  change (if a ≤ b then b else a).toNat = _
  split <;> rename_i h <;> rw [UInt64.le_iff_toNat_le] at h <;> omega

theorem toNat_maxSeq (events : List JournalEvent) (start : UInt64) :
    (maxSeq events start).toNat =
      events.foldl (fun m ev => max m ev.seq.toNat) start.toNat := by
  induction events generalizing start with
  | nil => rfl
  | cons ev events ih =>
    rw [List.foldl_cons, ← toNat_max]
    exact ih _

theorem foldl_max_le {events : List JournalEvent} {m n : ℕ} :
    events.foldl (fun m ev => max m ev.seq.toNat) m ≤ n ↔
      m ≤ n ∧ ∀ ev ∈ events, ev.seq.toNat ≤ n := by
  induction events generalizing m with
  | nil => simp
  | cons ev events ih => rw [List.foldl_cons, ih, max_le_iff, List.forall_mem_cons, and_assoc]

variable {cmds : List Command} {cmd : Command} {evs : List JournalEvent} {c : Core}

theorem allFresh_nil : AllFresh [] := by
  intro before cmd after h
  simp at h

theorem AllFresh.shorten {pre : List Command} (h : AllFresh cmds) (hp : pre <+: cmds) :
    AllFresh pre := by
  obtain ⟨rest, rfl⟩ := hp
  intro before cmd after hsplit
  exact h before cmd (after ++ rest) (by simp [hsplit])

theorem allFresh_concat :
    AllFresh (cmds ++ [cmd]) ↔ AllFresh cmds ∧ Fresh (stateAt cmds).1 cmd := by
  constructor
  · intro h
    exact ⟨h.shorten (List.prefix_append _ _), h cmds cmd [] rfl⟩
  · rintro ⟨hall, hf⟩ before cmd' after hsplit
    cases after using List.reverseRecOn with
    | nil =>
      obtain ⟨rfl, hlast⟩ := List.append_inj' hsplit rfl
      cases hlast
      exact hf
    | append_singleton after last =>
      have hsplit' : cmds ++ [cmd] = (before ++ cmd' :: after) ++ [last] := by simpa using hsplit
      exact hall before cmd' after (List.append_inj_left' hsplit' rfl)

/-- The factory rebuilds the very order that was submitted. -/
theorem createOrder_event (order : NewOrder) (seq : UInt64) (now : Int64) :
    let ev := makeSubmitEvent order.1 seq now
    createOrder ev.kind ev.orderId ev.traderId ev.side ev.quantity ev.price = .ok order.1 := by
  intro ev
  have hprice : ev.price = order.1.priceArgument := by
    cases h : order.1.price <;>
      simp [ev, makeSubmitEvent, Order.getOrderKind, Order.getPrice, Order.priceArgument, h]
  rw [hprice]
  exact createOrder_fields order.2

theorem applyEvent_event (cmd : Command) (seq : UInt64) (now : Int64) :
    applyEvent (cmd.event seq now) = applyCommand cmd := by
  cases cmd with
  | cancel id => rfl
  | submit order =>
    have htype : (Command.event (.submit order) seq now).type = .submit := rfl
    rw [applyEvent, htype]
    simp only [Command.event, createOrder_event]
    rfl

/-- Replaying from the state after `done` the events of commands that are all fresh. -/
theorem replay_ok (done : List Command) (m : UInt64) (h : RecordsAll cmds evs)
    (hfresh : AllFresh (done ++ cmds)) (hc : (c.book, c.tradeLog) = stateAt done) :
    (replay evs m).run c = .ok (maxSeq evs m)
      ⟨(stateAt (done ++ cmds)).1, (stateAt (done ++ cmds)).2, c.nextSeq⟩ := by
  induction h generalizing done c m with
  | nil =>
    rw [List.append_nil, ← hc]
    rfl
  | @cons cmd ev cmds evs hev hrest ih =>
    obtain ⟨seq, now, rfl⟩ := hev
    have hbook : c.book = (stateAt done).1 := congrArg Prod.fst hc
    have hlog : c.tradeLog = (stateAt done).2 := congrArg Prod.snd hc
    have hf : Fresh c.book cmd := hbook ▸ hfresh done cmd cmds rfl
    have hstep := stateAt_concat done cmd
    rw [← hbook, ← hlog] at hstep
    have hsplit : done ++ cmd :: cmds = (done ++ [cmd]) ++ cmds := by simp
    rw [hsplit] at hfresh ⊢
    rw [replay, applyEvent_event, bind_ok (applyCommand_ok (hbook ▸ run_invariant _) hf)]
    exact ih _ _ hfresh hstep.symm

theorem replay_fails (done : List Command) (m : UInt64) (h : RecordsAll cmds evs)
    (hdone : AllFresh done) (hfresh : ¬ AllFresh (done ++ cmds))
    (hc : (c.book, c.tradeLog) = stateAt done) : ∃ f c', (replay evs m).run c = .error f c' := by
  induction h generalizing done c m with
  | nil => exact absurd hdone (by simpa using hfresh)
  | @cons cmd ev cmds evs hev hrest ih =>
    obtain ⟨seq, now, rfl⟩ := hev
    have hbook : c.book = (stateAt done).1 := congrArg Prod.fst hc
    have hlog : c.tradeLog = (stateAt done).2 := congrArg Prod.snd hc
    have hinv : Invariant c.book := hbook ▸ run_invariant _
    rw [replay, applyEvent_event]
    by_cases hf : Fresh c.book cmd
    · have hstep := stateAt_concat done cmd
      rw [← hbook, ← hlog] at hstep
      have hsplit : done ++ cmd :: cmds = (done ++ [cmd]) ++ cmds := by simp
      rw [hsplit] at hfresh
      rw [bind_ok (applyCommand_ok hinv hf)]
      exact ih _ _ (allFresh_concat.mpr ⟨hdone, hbook ▸ hf⟩) hfresh hstep.symm
    · rw [bind_error (applyCommand_rejected hinv hf)]
      exact ⟨_, _, rfl⟩

/-- The core of an engine that has recovered the events. -/
def recovered (cmds : List Command) (evs : List JournalEvent) : Core :=
  ⟨(stateAt cmds).1, (stateAt cmds).2, maxSeq evs 0 + 1⟩

theorem recover_ok (h : RecordsAll cmds evs) (hfresh : AllFresh cmds) :
    (recover evs).run freshCore = .ok () (recovered cmds evs) := by
  rw [recover, bind_ok (replay_ok [] 0 h hfresh rfl)]
  rfl

theorem recover_fails (h : RecordsAll cmds evs) (hfresh : ¬ AllFresh cmds) :
    ∃ f c, (recover evs).run freshCore = .error f c := by
  obtain ⟨f, c, hf⟩ := replay_fails (c := freshCore) [] 0 h allFresh_nil hfresh rfl
  exact ⟨f, c, by rw [recover, bind_error hf]⟩

/-- The journal of a run replays to its end exactly when no command of it was rejected. -/
theorem recover_iff (h : RecordsAll cmds evs) :
    (∃ c, (recover evs).run freshCore = .ok () c) ↔ AllFresh cmds := by
  constructor
  · rintro ⟨c, hok⟩
    by_contra hfresh
    obtain ⟨f, c', herr⟩ := recover_fails h hfresh
    rw [hok] at herr
    cases herr
  · intro hfresh
    exact ⟨_, recover_ok h hfresh⟩

theorem allFresh_of_replay (h : RecordsAll cmds evs)
    (hok : ((recover evs).run freshCore matches .ok _ _) = true) : AllFresh cmds := by
  apply (recover_iff h).mp
  split at hok
  · rename_i c hc
    exact ⟨c, hc⟩
  · cases hok

/-! ## Any number of lives -/

/-- The next process starts where the commands that it recovered have led. -/
theorem restarted_process {J : Type} [IJournal J] {s : Engine J}
    (hcore : (restarted s).core = recovered cmds evs) :
    ProcessInvariant s.trace.history cmds (restarted s) := by
  have hpassed : (restarted s).trace.passed =
      [((restarted s).core.book, (restarted s).core.tradeLog)] := rfl
  refine .of_idle rfl rfl rfl ?_ ?_ ?_ ?_ (not_fatal rfl)
  · change s.trace.history = s.trace.history ++ [] ++ []
    rw [List.append_nil, List.append_nil]
  · change _ = (stateAt (cmds ++ [])).1
    rw [hcore, List.append_nil, recovered]
  · change _ ++ [] = (stateAt (cmds ++ [])).2
    rw [hcore, List.append_nil, List.append_nil, recovered]
  · rw [hpassed, hcore]
    change _ = [stateAt (cmds ++ [])]
    rw [List.append_nil]
    rfl

section Lives

variable {old : List Command} {s s' : Engine InMemoryJournal}

/-- The journal has the commands of all lives. While none of them was rejected, this life
started with the effects of those before it. -/
structure LivesInvariant (s : Engine InMemoryJournal) : Prop where
  records : RecordsAll s.trace.history s.journal.events
  process : AllFresh s.trace.history →
    ∃ old, ProcessInvariant old old s ∧ ControlInvariant s ∧ Delivered s

theorem records_concat (h : RecordsAll cmds evs) (seq : UInt64) (now : Int64) :
    RecordsAll (cmds ++ [cmd]) (evs ++ [cmd.event seq now]) :=
  List.rel_append h (.cons ⟨seq, now, rfl⟩ .nil)

theorem records_step (h : RecordsAll s.trace.history s.journal.events) (hs : Step s s') :
    RecordsAll s'.trace.history s'.journal.events := by
  cases step_moves hs with
  | quiet hcore htrace hjournal =>
    obtain ⟨pushed, htrace⟩ := htrace
    rw [htrace, hjournal.resolve_right nofun]
    exact h
  | loop now hm =>
    cases hm with
    | journal cmd hpc => exact records_concat h _ _
    | _ => exact h

theorem lives_run (h : LivesInvariant s) (hs : Step s s') : LivesInvariant s' where
  records := records_step h.records hs
  process := by
    intro hfresh
    have hm := step_moves hs
    obtain ⟨old, hp, hc, hd⟩ := h.process (hfresh.shorten (history_grows hm))
    obtain ⟨hp', hc'⟩ := step_invariant hp hc hs
    exact ⟨old, hp', hc', delivered_move hp hd hm⟩

theorem restarted_core (h : LivesInvariant s) (hfresh : AllFresh s.trace.history) :
    (restarted s).core = recovered s.trace.history s.journal.events :=
  congrArg stateAfter (recover_ok h.records hfresh)

theorem lives_crash (h : LivesInvariant s) : LivesInvariant (restarted s) where
  records := h.records
  process := by
    intro hfresh
    obtain ⟨old, hp, _, hd⟩ := h.process hfresh
    have hcore := restarted_core h hfresh
    refine ⟨s.trace.history, restarted_process hcore, rfl, hd.extend ?_ (fun _ _ => id) rfl⟩
    rw [hcore]
    exact log_behind_history hp

theorem lives_initial : LivesInvariant (initial ⟨[]⟩) where
  records := .nil
  process _ := ⟨[], initial_invariant _, initial_control _, ⟨nofun, nofun⟩⟩

theorem lives_invariant (h : Reachable Lives (initial ⟨[]⟩) s) : LivesInvariant s := by
  apply h.invariant lives_initial
  intro s s' hi _ hstep
  cases hstep with
  | run hs => exact lives_run hi hs
  | crash => exact lives_crash hi

/-- What a process that ends in `s` leaves to the next one. -/
structure Recovers (s : Engine InMemoryJournal) : Prop where
  journaled : RecordsAll s.trace.history s.journal.events
  replays : ∃ c, (recover s.journal.events).run freshCore = .ok () c ∧ (restarted s).core = c
  book : (restarted s).core.book = run emptyBook (calls s.trace.history)
  tradeLog : (restarted s).core.tradeLog = trades emptyBook (calls s.trace.history)
  logged : s.core.tradeLog <+: (restarted s).core.tradeLog
  sent : ∀ p t, .onTrade p t ∈ s.trace.sink → (restarted s).core.tradeLog[p]? = some t
  calledBack : ∀ p t, (p, t) ∈ s.trace.callbacks → (restarted s).core.tradeLog[p]? = some t
  /-- Only the last journaled command can be missing, whole or in part, from the live state. -/
  ahead : ∃ before, (s.trace.history = before ∨ ∃ cmd, s.trace.history = before ++ [cmd]) ∧
    (s.core.book = run emptyBook (calls before) ∨ s.core.book = (restarted s).core.book) ∧
    trades emptyBook (calls before) <+: s.core.tradeLog

theorem behind_by_one {J : Type} {base : List Command} {s : Engine J}
    (h : ProcessInvariant base base s) :
    ∃ before, (s.trace.history = before ∨ ∃ cmd, s.trace.history = before ++ [cmd]) ∧
      (s.core.book = (stateAt before).1 ∨ s.core.book = (stateAt s.trace.history).1) ∧
      (stateAt before).2 <+: s.core.tradeLog := by
  have hhistory := h.history
  cases hpub : publishing (pcOf s) with
  | some cmd =>
    -- The book has the command in hand, the trade log perhaps not all of it.
    rw [unapplied_of_publishing hpub, List.append_nil] at hhistory
    refine ⟨base ++ s.trace.applied.dropLast, .inr ⟨cmd, ?_⟩, .inr (hhistory ▸ h.book),
      h.begun cmd hpub⟩
    rw [hhistory, List.append_assoc, List.dropLast_append_getLast? _ (h.inFlight cmd hpub)]
  | none =>
    refine ⟨base ++ s.trace.applied, ?_, .inl h.book, ?_⟩
    · cases hpc : pcOf s with
      | journaled cmd => exact .inr ⟨cmd, by rw [hhistory, hpc, unapplied]⟩
      | terminated cmd f => exact .inr ⟨cmd, by rw [hhistory, hpc, unapplied]⟩
      | _ => exact .inl (by simp [hhistory, hpc, unapplied])
    · have hlog := h.log
      have hnone : pending (pcOf s) = [] := by
        cases hpc : pcOf s <;> simp_all [publishing, pending]
      rw [hnone, List.append_nil] at hlog
      exact hlog ▸ List.prefix_rfl

/-- Whatever step a process ends at, recovery has the uninterrupted run of the journaled
commands. -/
theorem crash_recovery (h : Reachable Lives (initial ⟨[]⟩) s)
    (hfresh : AllFresh s.trace.history) : Recovers s := by
  have hinv := lives_invariant h
  obtain ⟨old, hp, hc, hd⟩ := hinv.process hfresh
  have hcore := restarted_core hinv hfresh
  have hlog : s.core.tradeLog <+: (restarted s).core.tradeLog := hcore ▸ log_behind_history hp
  have hkept := hd.extend hlog (fun _ _ => id) rfl
  refine ⟨hinv.records, ⟨_, recover_ok hinv.records hfresh, hcore⟩, congrArg Core.book hcore,
    congrArg Core.tradeLog hcore,
    hlog, hkept.sent, hkept.calledBack, ?_⟩
  rw [hcore]
  exact behind_by_one hp

theorem lives_of_events {es : List Event} (h : events (initial ⟨[]⟩) es = some s) :
    Reachable Lives (initial ⟨[]⟩) s :=
  (events_reachable .initial h).map fun hs => .run hs

/-- A process that ends between the trade's entry in the log and its way to the sink. -/
def cutShort : List Event :=
  [.start, .control, .control, .control,
    .push 1 (.submit (NewOrder.limit 1 1 .sell 5 five_pos .hundred)),
    .push 2 (.submit (NewOrder.market 2 2 .buy 3 three_pos))] ++ List.replicate 8 (.loop 0)

theorem cutShort_ends : (events (initial ⟨[]⟩) cutShort).map (fun s : Engine InMemoryJournal =>
    (s.core.tradeLog, ((recover s.journal.events).run freshCore matches .ok _ _))) =
    some ([⟨2, 1, .hundred, 3⟩], true) := by
  decide +kernel

theorem crash_recovery_cutShort : ∃ s, events (initial ⟨[]⟩) cutShort = some s ∧
    s.core.tradeLog = [⟨2, 1, .hundred, 3⟩] ∧ Recovers s ∧ Recovers (restarted s) := by
  obtain ⟨s, hs, hobs⟩ := Option.map_eq_some_iff.mp cutShort_ends
  obtain ⟨hlog, hok⟩ := Prod.mk.inj hobs
  have hreach := lives_of_events hs
  have hfresh := allFresh_of_replay (lives_invariant hreach).records hok
  exact ⟨s, hs, hlog, crash_recovery hreach hfresh,
    crash_recovery (.next hreach trivial (.crash s)) hfresh⟩

end Lives

end Recovery
