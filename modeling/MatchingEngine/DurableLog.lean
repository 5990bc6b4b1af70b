import MatchingEngine.DatabaseEngine
import MatchingEngine.Recovery

/-! # The durable log

How the table of events stands to the history of the engines that wrote it, whatever the
batches and wherever a process ends. -/
namespace DurableLog

open EngineTypes
open Orders
open OrderBook
open BookRuns
open Journal
open BatchLog
open DatabaseJournal
open DatabaseEngine
open EngineMachine
open EngineMoves
open EngineInvariant
open Recovery
open Transitions

/-! ## Sequence numbers -/

section

/-- The numbers increase, and `next` is above them all. -/
structure Numbered (evs : List JournalEvent) (next : UInt64) : Prop where
  increasing : evs.Pairwise fun a b => a.seq < b.seq
  below : ∀ ev ∈ evs, ev.seq < next

variable {evs : List JournalEvent} {next : UInt64}

theorem Numbered.shorten {pre : List JournalEvent} (h : Numbered evs next) (hp : pre <+: evs) :
    Numbered pre next where
  increasing := h.increasing.sublist hp.sublist
  below ev hev := h.below ev (hp.subset hev)

theorem lt_succ {n : UInt64} (h : n.toNat ≤ 2 ^ 63) : n < n + 1 := by
  rw [UInt64.lt_iff_toNat_lt, UInt64.toNat_add]
  change n.toNat < (n.toNat + 1) % 2 ^ 64
  omega

theorem Numbered.concat (h : Numbered evs next) (hfew : next.toNat ≤ 2 ^ 63) {ev : JournalEvent}
    (hev : ev.seq = next) : Numbered (evs ++ [ev]) (next + 1) := by
  constructor
  · rw [List.pairwise_append]
    refine ⟨h.increasing, List.pairwise_singleton _ _, ?_⟩
    intro a ha b hb
    rw [List.mem_singleton.mp hb, hev]
    exact h.below a ha
  · intro a ha
    rcases List.mem_append.mp ha with ha | ha
    · exact UInt64.lt_trans (h.below a ha) (lt_succ hfew)
    · rw [List.mem_singleton.mp ha, hev]
      exact lt_succ hfew

theorem le_maxSeq (evs : List JournalEvent) (m : UInt64) :
    m ≤ maxSeq evs m ∧ ∀ ev ∈ evs, ev.seq ≤ maxSeq evs m := by
  simp only [UInt64.le_iff_toNat_le, toNat_maxSeq]
  exact foldl_max_le.mp le_rfl

theorem maxSeq_lt {bound : ℕ} {m : UInt64} (hm : m.toNat < bound)
    (h : ∀ ev ∈ evs, ev.seq.toNat < bound) : (maxSeq evs m).toNat < bound := by
  have hle : (maxSeq evs m).toNat ≤ bound - 1 := by
    rw [toNat_maxSeq]
    exact foldl_max_le.mpr ⟨Nat.le_sub_one_of_lt hm, fun ev hev => Nat.le_sub_one_of_lt (h ev hev)⟩
  omega

/-- `recover` goes on numbering above all that it has read. -/
theorem Numbered.restart (h : Numbered evs next) (hfew : next.toNat ≤ 2 ^ 63) :
    Numbered evs (maxSeq evs 0 + 1) := by
  have hmax : (maxSeq evs 0).toNat < 2 ^ 63 := by
    apply maxSeq_lt (by decide)
    intro ev hev
    exact Nat.lt_of_lt_of_le (UInt64.lt_iff_toNat_lt.mp (h.below ev hev)) hfew
  refine ⟨h.increasing, ?_⟩
  intro ev hev
  exact UInt64.lt_of_le_of_lt ((le_maxSeq evs 0).2 ev hev) (lt_succ hmax.le)

/-- Below `2 ^ 63` the signed column has the order of the numbers. -/
theorem toInt64_le {a b : UInt64} (hb : b.toNat < 2 ^ 63) (h : a ≤ b) : a.toInt64 ≤ b.toInt64 := by
  have hle : a.toNat ≤ b.toNat := h
  have hsigned : ∀ {x : UInt64}, x.toNat < 2 ^ 63 → x.toInt64.toInt = x.toNat := by
    intro x hx
    exact BitVec.toInt_eq_toNat_of_lt (by change 2 * x.toNat < 2 ^ 64; omega)
  rw [Int64.le_iff_toInt_le, hsigned hb, hsigned (by omega)]
  exact Int.ofNat_le.mpr hle

/-- A table written in the order of the numbers is read back in that order. -/
theorem loadAll_of_table {j : PostgresJournal} (htable : j.db.events = evs.map insEvent)
    (hn : Numbered evs next) (hfew : next.toNat ≤ 2 ^ 63) : loadAll j = evs := by
  have hsorted : (evs.map insEvent).Pairwise fun a b => a.seq ≤ b.seq := by
    rw [List.pairwise_map]
    refine hn.increasing.imp_of_mem ?_
    intro a b _ hb hlt
    have hsmall := UInt64.lt_iff_toNat_lt.mp (hn.below b hb)
    exact toInt64_le (by omega) (UInt64.le_of_lt hlt)
  rw [loadAll, htable, hsorted.insertionSort_eq, List.map_map]
  exact List.map_id'' readEvent_insEvent evs

end

/-! ## One life -/

section

variable {old base : List Command} {s s' : Engine PostgresJournal}

/-- What the run may not have done: submitted a resting id, kept a batch of events after one
that was dropped, or numbered beyond the signed column. -/
structure Sound (s : Engine PostgresJournal) : Prop where
  fresh : ∀ cmd ∈ unapplied (pcOf s), Fresh s.core.book cmd
  noHole : NoHole Record.event? s.journal.trace.batches
  few : s.core.nextSeq.toNat ≤ 2 ^ 63

/-- `base` are the commands of the events that this life recovered. -/
structure LogInvariant (old base : List Command) (s : Engine PostgresJournal) : Prop where
  writer : WriterInvariant s
  process : ProcessInvariant old base s
  control : ControlInvariant s
  loaded : base.length = s.trace.recovered.length
  records : ∃ new, s.trace.history = old ++ new ∧
    RecordsAll (base ++ new) (s.trace.recovered ++ s.trace.appended)
  fresh : AllFresh (base ++ s.trace.applied)
  opened : s.journal.trace.opened.events = s.trace.recovered.map insEvent
  numbered : Numbered (s.trace.recovered ++ s.trace.appended) s.core.nextSeq

theorem Sound.journaled (hs : Sound s) (h : ProcessInvariant old base s)
    (hfresh : AllFresh (base ++ s.trace.applied)) :
    AllFresh (base ++ s.trace.applied ++ unapplied (pcOf s)) := by
  cases hu : unapplied (pcOf s) with
  | nil => simpa using hfresh
  | cons cmd cmds =>
    have hf := hs.fresh cmd (by simp [hu])
    rw [unapplied_cons hu]
    rw [h.book] at hf
    exact allFresh_concat.mpr ⟨hfresh, hf⟩

theorem log_initial : LogInvariant [] [] (initial (openJournal ⟨[], []⟩)) :=
  ⟨opened_writer _, initial_invariant _, initial_control _, rfl, ⟨[], rfl, .nil⟩, allFresh_nil,
    rfl, .nil, nofun⟩

theorem opened_move (h : WriterInvariant s) (hm : Move s s') :
    s'.journal.trace.opened = s.journal.trace.opened := by
  cases hm with
  | quiet hcore htrace hjournal =>
    rcases hjournal with hjournal | ⟨commits, hstep⟩
    · rw [hjournal]
    · exact (writer_frame h.journal hstep).opened
  | loop now hm => cases hm <;> rfl

/-- The part of the trace that only the matching thread writes. -/
theorem log_move (h : LogInvariant old base s) (hs : Sound s) (hm : Move s s')
    (hw : WriterInvariant s') (hp : ProcessInvariant old base s') (hc : ControlInvariant s') :
    LogInvariant old base s' := by
  obtain ⟨hwriter, hprocess, _, hloaded, hrecords, hfresh, hopened, hnumbered⟩ := h
  have hopened' := opened_move hwriter hm
  cases hm with
  | quiet hcore htrace hjournal =>
    obtain ⟨pushed, htrace⟩ := htrace
    refine ⟨hw, hp, hc, ?_, ?_, ?_, ?_, ?_⟩
    · exact htrace ▸ hloaded
    · exact htrace ▸ hrecords
    · exact htrace ▸ hfresh
    · rw [hopened', htrace]
      exact hopened
    · rw [hcore, htrace]
      exact hnumbered
  | loop now hm =>
    cases hm with
    | journal cmd hpc =>
      obtain ⟨new, hhistory, hrecords⟩ := hrecords
      refine ⟨hw, hp, hc, hloaded, ⟨new ++ [cmd], ?_, ?_⟩, hfresh, hopened, ?_⟩
      · simp [journalCommand, hhistory]
      · simpa [journalCommand] using records_concat hrecords s.core.nextSeq now
      · have hseq : (cmd.event s.core.nextSeq now).seq = s.core.nextSeq := by cases cmd <;> rfl
        simpa [journalCommand] using hnumbered.concat hs.few hseq
    | reject cmd f core hpc hr =>
      have hf : Fresh s.core.book cmd := hs.fresh cmd (by simp [pcOf, hpc, unapplied])
      exact absurd hf (rejected_unchanged hprocess.reachable_book hr).1
    | apply cmd ts core hpc hr =>
      obtain ⟨hf, _, rfl⟩ := applied_fresh hprocess.reachable_book hr
      refine ⟨hw, hp, hc, hloaded, hrecords, ?_, hopened, hnumbered⟩
      rw [hprocess.book] at hf
      rw [← List.append_assoc]
      exact allFresh_concat.mpr ⟨hfresh, hf⟩
    | _ => exact ⟨hw, hp, hc, hloaded, hrecords, hfresh, hopened, hnumbered⟩

theorem log_run (h : LogInvariant old base s) (hs : Sound s) (hstep : Step s s') :
    LogInvariant old base s' := by
  have hm := step_moves hstep
  obtain ⟨hp, hc⟩ := step_invariant h.process h.control hstep
  exact log_move h hs hm (writer_move h.writer hm) hp hc

/-- Everything recovered or journaled in this life, in order. -/
def eventsOf (s : Engine PostgresJournal) : List JournalEvent :=
  s.trace.recovered ++ s.trace.appended

theorem records_eventsOf (h : LogInvariant old base s) :
    RecordsAll (base ++ s.trace.applied ++ unapplied (pcOf s)) (eventsOf s) := by
  obtain ⟨new, hhistory, hrecords⟩ := h.records
  have hnew : new = s.trace.applied ++ unapplied (pcOf s) := by
    have hsame := hhistory.symm.trans h.process.history
    rw [List.append_assoc] at hsame
    exact List.append_cancel_left hsame
  rw [List.append_assoc, ← hnew]
  exact hrecords

/-- How many events of this life are in the table. -/
def committed (s : Engine PostgresJournal) : ℕ :=
  ((kept s.journal.trace.batches).filterMap Record.event?).length

/-- The table has the recovered events and the first that were appended. -/
theorem table_committed (h : LogInvariant old base s) (hs : Sound s) : s.journal.db.events =
    ((eventsOf s).take (s.trace.recovered.length + committed s)).map insEvent := by
  have hkept := kept_first hs.noHole
  have hall : (attempted s.journal.trace.batches).filterMap Record.event? <+: s.trace.appended := by
    rw [← h.writer.appended, log, List.append_assoc]
    exact (List.prefix_append _ _).filterMap _
  have htake := List.prefix_iff_eq_take.mp (hkept.trans hall)
  rw [eventsOf, List.take_length_add_append, List.map_append, committed, ← htake,
    h.writer.journal.events, h.opened]

theorem table_first (h : LogInvariant old base s) (hs : Sound s) :
    ∃ k ≥ s.trace.recovered.length, s.journal.db.events = ((eventsOf s).take k).map insEvent :=
  ⟨_, Nat.le_add_right _ _, table_committed h hs⟩

/-! ## Recovery from the table -/

theorem loadAll_first (h : LogInvariant old base s) (hs : Sound s) {k : ℕ}
    (htable : s.journal.db.events = ((eventsOf s).take k).map insEvent) :
    loadAll s.journal = (eventsOf s).take k :=
  loadAll_of_table htable (h.numbered.shorten (List.take_prefix _ _)) hs.few

theorem recover_table (h : LogInvariant old base s) (hs : Sound s) {k : ℕ}
    (htable : s.journal.db.events = ((eventsOf s).take k).map insEvent) :
    (recover (loadAll s.journal)).run freshCore =
      .ok () (recovered ((base ++ s.trace.applied ++ unapplied (pcOf s)).take k)
        ((eventsOf s).take k)) := by
  rw [loadAll_first h hs htable]
  apply recover_ok
  · exact List.forall₂_take k (records_eventsOf h)
  · exact (hs.journaled h.process h.fresh).shorten (List.take_prefix _ _)

/-- The next life starts with the commands whose events are in the table. -/
theorem log_crash (h : LogInvariant old base s) (hs : Sound s) : LogInvariant s.trace.history
    ((base ++ s.trace.applied ++ unapplied (pcOf s)).take
      (s.trace.recovered.length + committed s)) (restarted s) := by
  have htable := table_committed h hs
  generalize s.trace.recovered.length + committed s = k at htable ⊢
  have hload := loadAll_first h hs htable
  have hcore : (restarted s).core = _ := congrArg stateAfter (recover_table h hs htable)
  have hloaded : (restarted s).trace.recovered = (eventsOf s).take k := hload
  have hrecords := List.forall₂_take k (records_eventsOf h)
  have hfresh := (hs.journaled h.process h.fresh).shorten (List.take_prefix k _)
  generalize (base ++ s.trace.applied ++ unapplied (pcOf s)).take k = cmds at hcore hrecords hfresh
  refine ⟨writer_lives h.writer (.crash s), restarted_process hcore, rfl, ?_, ⟨[], ?_, ?_⟩,
    ?_, ?_, ?_⟩
  · rw [hloaded]
    exact hrecords.length_eq
  · exact (List.append_nil _).symm
  · rw [hloaded]
    change RecordsAll (cmds ++ []) (_ ++ [])
    rw [List.append_nil, List.append_nil]
    exact hrecords
  · simpa [restarted] using hfresh
  · rw [hloaded]
    exact htable
  · rw [hloaded, hcore]
    change Numbered (_ ++ []) _
    rw [List.append_nil]
    exact (h.numbered.shorten (List.take_prefix k _)).restart hs.few

theorem log_invariant (h : ReachedBy Lives Sound (initial (openJournal ⟨[], []⟩)) s) :
    ∃ old base, LogInvariant old base s := by
  apply h.invariant (I := fun s => ∃ old base, LogInvariant old base s)
  · exact ⟨[], [], log_initial⟩
  · rintro s s' ⟨old, base, hi⟩ hsound hs
    cases hs with
    | run hs => exact ⟨old, base, log_run hi hsound hs⟩
    | crash => exact ⟨_, _, log_crash hi hsound⟩

/-- The recovered state is what the command in flight makes of the last state passed. -/
def OneAhead (s : Engine PostgresJournal) (c : Core) : Prop :=
  ∃ b ts cmd, s.trace.passed.getLast? = some (b, ts) ∧
    (publishing (pcOf s) = some cmd ∨ cmd ∈ unapplied (pcOf s)) ∧
    c.book = step b cmd.call ∧ c.tradeLog = ts ++ returned ((perform cmd.call).run b)

theorem oneAhead_of_concat {c : Core} {cmds : List Command} {cmd : Command}
    (hlast : s.trace.passed.getLast? = some (stateAt cmds))
    (hflight : publishing (pcOf s) = some cmd ∨ cmd ∈ unapplied (pcOf s))
    (hc : (c.book, c.tradeLog) = stateAt (cmds ++ [cmd])) : OneAhead s c := by
  rw [stateAt_concat] at hc
  obtain ⟨hbook, hlog⟩ := Prod.mk.inj hc
  exact ⟨_, _, cmd, hlast, hflight, hbook, hlog⟩

/-- Where the first commands of a life, those in flight included, lead to. -/
theorem passed_or_ahead (h : ProcessInvariant old base s) {c : Core} {i : ℕ}
    (hc : (c.book, c.tradeLog) =
      stateAt (base ++ (s.trace.applied ++ unapplied (pcOf s)).take i)) :
    (c.book, c.tradeLog) ∈ s.trace.passed ∨ OneAhead s c := by
  have hpassed := h.passed
  have hlast := milestones_getLast base s.trace.applied (settled s.trace.applied (pcOf s))
  rw [← hpassed] at hlast
  cases hpub : publishing (pcOf s) with
  | some cmd =>
    -- The last command applied is still being published.
    have happlied := List.dropLast_append_getLast? _ (h.inFlight cmd hpub)
    simp only [settled, hpub, Option.isSome_some, if_true, ← List.dropLast_eq_take] at hpassed hlast
    rw [unapplied_of_publishing hpub, List.append_nil] at hc
    rcases Nat.lt_or_ge i s.trace.applied.length with hlt | hge
    · rw [hc, hpassed]
      exact Or.inl (mem_milestones _ _ (Nat.le_sub_one_of_lt hlt))
    · rw [List.take_of_length_le hge, ← happlied, ← List.append_assoc] at hc
      exact Or.inr (oneAhead_of_concat hlast (.inl hpub) hc)
  | none =>
    simp only [settled, hpub, Option.isSome_none, Bool.false_eq_true, if_false,
      List.take_length] at hpassed hlast
    rcases Nat.lt_or_ge s.trace.applied.length i with hlt | hge
    · cases hu : unapplied (pcOf s) with
      | nil =>
        rw [hu, List.append_nil, List.take_of_length_le hlt.le, ← List.take_length
          (l := s.trace.applied)] at hc
        rw [hc, hpassed]
        exact Or.inl (mem_milestones _ _ le_rfl)
      | cons cmd cmds =>
        have hall : (s.trace.applied ++ [cmd]).length ≤ i := by
          rw [List.length_append]
          exact hlt
        rw [hu, unapplied_cons hu, List.take_of_length_le hall, ← List.append_assoc] at hc
        exact Or.inr (oneAhead_of_concat hlast (.inr (by simp [hu])) hc)
    · rw [List.take_append_of_le_length hge] at hc
      rw [hc, hpassed]
      exact Or.inl (mem_milestones _ _ hge)

/-- The table is a prefix of history, and recovery from it is on the way of the engine. -/
structure Durable (s : Engine PostgresJournal) : Prop where
  table : ∃ k ≥ s.trace.recovered.length,
    s.journal.db.events = ((eventsOf s).take k).map insEvent ∧
      loadAll s.journal = (eventsOf s).take k
  recovers : ∃ c, (recover (loadAll s.journal)).run freshCore = .ok () c ∧
    (restarted s).core = c ∧ ((c.book, c.tradeLog) ∈ s.trace.passed ∨ OneAhead s c)

/-- As long as no batch of events is kept after one that was dropped, a crash loses the last
events and no others. -/
theorem durable_log (h : ReachedBy Lives Sound (initial (openJournal ⟨[], []⟩)) s)
    (hs : Sound s) : Durable s := by
  obtain ⟨old, base, hi⟩ := log_invariant h
  obtain ⟨k, hk, htable⟩ := table_first hi hs
  have hrecover := recover_table hi hs htable
  refine ⟨⟨k, hk, htable, loadAll_first hi hs htable⟩,
    ⟨_, hrecover, congrArg stateAfter hrecover, ?_⟩⟩
  apply passed_or_ahead hi.process (i := k - base.length)
  have htake : (base ++ s.trace.applied ++ unapplied (pcOf s)).take k =
      base ++ (s.trace.applied ++ unapplied (pcOf s)).take (k - base.length) := by
    rw [List.append_assoc, List.take_append, List.take_of_length_le (hi.loaded ▸ hk)]
  rw [← htake]
  rfl

end

/-! ## Runs of engine and writer -/

section

variable {old base : List Command} {s s' : Engine PostgresJournal}

/-- Events of the engine and steps of the writer, each from a state that passes the check. -/
def schedule (check : Engine PostgresJournal → Bool) (s : Engine PostgresJournal) :
    List (Event ⊕ Bool) → Option (Engine PostgresJournal)
  | [] => if check s then some s else none
  | .inl e :: es =>
    if check s then (next s e).bind fun s' => schedule check s' es else none
  | .inr commits :: es =>
    if check s && alive s then
      (writerStep commits s.journal).bind fun j => schedule check { s with journal := j } es
    else none

theorem schedule_keeps {I : Engine PostgresJournal → Prop} {check : Engine PostgresJournal → Bool}
    {es : List (Event ⊕ Bool)}
    (hstep : ∀ s s', I s → check s = true → Step s s' → I s') (h : I s)
    (hs : schedule check s es = some s') : I s' ∧ check s' = true := by
  induction es generalizing s with
  | nil =>
    simp only [schedule, Option.ite_none_right_eq_some, Option.some.injEq] at hs
    obtain ⟨hok, rfl⟩ := hs
    exact ⟨h, hok⟩
  | cons e es ih =>
    cases e with
    | inl e =>
      simp only [schedule, Option.ite_none_right_eq_some] at hs
      obtain ⟨hok, hs⟩ := hs
      obtain ⟨t, ht, hrest⟩ := Option.bind_eq_some_iff.mp hs
      exact ih (hstep s t h hok (.event e ht)) hrest
    | inr commits =>
      simp only [schedule, Option.ite_none_right_eq_some, Bool.and_eq_true] at hs
      obtain ⟨⟨hok, halive⟩, hs⟩ := hs
      obtain ⟨j, hj, hrest⟩ := Option.bind_eq_some_iff.mp hs
      exact ih (hstep s _ h hok (.background s j halive ⟨commits, hj⟩)) hrest

theorem schedule_reached {P : Engine PostgresJournal → Prop} {s₀ : Engine PostgresJournal}
    {check : Engine PostgresJournal → Bool} {es : List (Event ⊕ Bool)}
    (hcheck : ∀ s, ReachedBy Lives P s₀ s → check s = true → P s) (h : ReachedBy Lives P s₀ s)
    (hs : schedule check s es = some s') : ReachedBy Lives P s₀ s' ∧ P s' := by
  have hstep : ∀ s s', ReachedBy Lives P s₀ s → check s = true → Step s s' →
      ReachedBy Lives P s₀ s' :=
    fun s s' h hok hs => .next h (hcheck s h hok) (.run hs)
  obtain ⟨hreach, hok⟩ := schedule_keeps hstep h hs
  exact ⟨hreach, hcheck s' hreach hok⟩

theorem schedule_reachable {es : List (Event ⊕ Bool)} {s₀ : Engine PostgresJournal}
    (hs : schedule (fun _ => true) s₀ es = some s') : Reachable Lives s₀ s' :=
  (schedule_reached (fun _ _ _ => trivial) .initial hs).1

/-- A test that is enough for `Sound`: no batch was dropped at all. -/
def soundCheck (s : Engine PostgresJournal) : Bool :=
  (unapplied (pcOf s)).all (fun cmd =>
    match cmd with
    | .submit order => (s.core.book.ownedOrders order.1.id).isNone
    | .cancel _ => true) &&
  s.journal.trace.batches.all Batch.kept && decide (s.core.nextSeq.toNat ≤ 2 ^ 63)

theorem check_passed (h : ProcessInvariant old base s) (hcheck : soundCheck s = true) :
    (∀ cmd ∈ unapplied (pcOf s), Fresh s.core.book cmd) ∧
      (∀ b ∈ s.journal.trace.batches, b.kept = true) ∧ s.core.nextSeq.toNat ≤ 2 ^ 63 := by
  simp only [soundCheck, Bool.and_eq_true, List.all_eq_true, decide_eq_true_eq] at hcheck
  obtain ⟨⟨hfresh, hkept⟩, hfew⟩ := hcheck
  refine ⟨?_, hkept, hfew⟩
  intro cmd hcmd
  have hfree := hfresh cmd hcmd
  cases cmd with
  | submit order =>
    exact (fresh_iff h.reachable_book order).mpr (Option.isNone_iff_eq_none.mp hfree)
  | cancel id => exact fresh_cancel _ id

theorem sound_of_kept (hfresh : ∀ cmd ∈ unapplied (pcOf s), Fresh s.core.book cmd)
    (hkept : ∀ b ∈ s.journal.trace.batches, b.kept = true) (hfew : s.core.nextSeq.toNat ≤ 2 ^ 63) :
    Sound s := by
  refine ⟨hfresh, ?_, hfew⟩
  apply List.pairwise_of_forall_mem_list
  intro b hb c _ hlost
  rw [hkept b hb] at hlost
  cases hlost

theorem sound_of_check (h : ReachedBy Lives Sound (initial (openJournal ⟨[], []⟩)) s)
    (hcheck : soundCheck s = true) : Sound s := by
  obtain ⟨old, base, hi⟩ := log_invariant h
  obtain ⟨hfresh, hkept, hfew⟩ := check_passed hi.process hcheck
  exact sound_of_kept hfresh hkept hfew

/-- An ask is journaled and on its way, and the writer commits it. -/
def writtenAhead : List (Event ⊕ Bool) :=
  [.inl .start, .inl .control, .inl .control, .inl .control,
    .inl (.push 1 (.submit (NewOrder.limit 1 1 .sell 5 five_pos .hundred))),
    .inl (.loop 0), .inl (.loop 0), .inr true, .inr true]

theorem writtenAhead_ends :
    (schedule soundCheck (initial (openJournal ⟨[], []⟩)) writtenAhead).map
      (fun s => (s.trace.passed.all fun p => (getBestAsk p.1).isNone,
        match (recover (loadAll s.journal)).run freshCore with
        | .ok _ c => (getBestAsk c.book).isSome
        | .error _ _ => false)) = some (true, true) := by
  decide +kernel

theorem durable_log_writtenAhead : ∃ s,
    schedule soundCheck (initial (openJournal ⟨[], []⟩)) writtenAhead = some s ∧ Durable s := by
  obtain ⟨s, hs, _⟩ := Option.map_eq_some_iff.mp writtenAhead_ends
  obtain ⟨hreach, hsound⟩ := schedule_reached (fun _ => sound_of_check) .initial hs
  exact ⟨s, hs, durable_log hreach hsound⟩

/-- The first event's batch is dropped, the second one's is kept. -/
def hole : List (Event ⊕ Bool) :=
  [.inl .start, .inl .control, .inl .control, .inl .control,
    .inl (.push 1 (.submit (NewOrder.limit 1 1 .sell 5 five_pos .hundred))),
    .inl (.push 1 (.cancel 1)), .inl (.loop 0), .inl (.loop 0),
    .inr true, .inr false, .inr true, .inl (.loop 0), .inl (.loop 0), .inl (.loop 0),
    .inl (.loop 0), .inr true, .inr true]

theorem hole_ends : (schedule (fun _ => true) (initial (openJournal ⟨[], []⟩)) hole).map
    (fun s => (s.journal.db.events.map EventsRow.seq, (eventsOf s).map JournalEvent.seq)) =
    some ([2], [1, 2]) := by
  decide +kernel

/-- The id of a resting order is submitted, and both events are committed. -/
def poisoned : List (Event ⊕ Bool) :=
  [.inl .start, .inl .control, .inl .control, .inl .control,
    .inl (.push 1 (.submit (NewOrder.limit 1 1 .sell 5 five_pos .hundred))),
    .inl (.push 1 (.submit (NewOrder.limit 1 1 .sell 5 five_pos .hundred)))] ++
  List.replicate 6 (.inl (.loop 0)) ++ [.inr true, .inr true]

theorem poisoned_ends : (schedule (fun _ => true) (initial (openJournal ⟨[], []⟩)) poisoned).map
    (fun s => (s.journal.trace.batches.all Batch.kept,
      ((recover (loadAll s.journal)).run freshCore matches .error _ _))) = some (true, true) := by
  decide +kernel

/-- A dropped batch leaves a hole; without one, a rejected command stops recovery; and without
either, recovery can lead to a state that the engine never had. -/
theorem durable_log_fails :
    (¬ ∀ s, Reachable Lives (initial (openJournal ⟨[], []⟩)) s →
      ∃ k, s.journal.db.events = ((eventsOf s).take k).map insEvent) ∧
    (¬ ∀ s, Reachable Lives (initial (openJournal ⟨[], []⟩)) s →
      s.journal.trace.batches.all Batch.kept = true →
      ∃ c, (recover (loadAll s.journal)).run freshCore = .ok () c) ∧
    ¬ ∀ s, ReachedBy Lives Sound (initial (openJournal ⟨[], []⟩)) s → Sound s →
      ∀ c, (recover (loadAll s.journal)).run freshCore = .ok () c →
        (c.book, c.tradeLog) ∈ s.trace.passed := by
  refine ⟨?_, ?_, ?_⟩
  · intro hall
    obtain ⟨s, hs, hobs⟩ := Option.map_eq_some_iff.mp hole_ends
    obtain ⟨hrows, hevents⟩ := Prod.mk.inj hobs
    obtain ⟨k, htable⟩ := hall s (schedule_reachable hs)
    have hseqs := congrArg (List.map EventsRow.seq) htable
    have htake : (((eventsOf s).take k).map insEvent).map EventsRow.seq =
        (((eventsOf s).map JournalEvent.seq).take k).map UInt64.toInt64 := by
      rw [List.map_map, ← List.map_take, List.map_map]
      rfl
    rw [hrows, htake, hevents] at hseqs
    rcases k with _ | _ | k
    · cases hseqs
    · revert hseqs
      decide
    · simp at hseqs
  · intro hall
    obtain ⟨s, hs, hobs⟩ := Option.map_eq_some_iff.mp poisoned_ends
    obtain ⟨hkept, herror⟩ := Prod.mk.inj hobs
    obtain ⟨c, hok⟩ := hall s (schedule_reachable hs) hkept
    rw [hok] at herror
    cases herror
  · intro hall
    obtain ⟨s, hs, hobs⟩ := Option.map_eq_some_iff.mp writtenAhead_ends
    obtain ⟨hpassed, hask⟩ := Prod.mk.inj hobs
    obtain ⟨hreach, hsound⟩ := schedule_reached (fun _ => sound_of_check) .initial hs
    cases hr : (recover (loadAll s.journal)).run freshCore with
    | error f c => simp [hr] at hask
    | ok a c =>
      have hmem := hall s hreach hsound c hr
      have hnone := List.all_eq_true.mp hpassed _ hmem
      rw [hr] at hask
      simp only [Option.isNone_iff_eq_none] at hnone
      simp [hnone] at hask

end

end DurableLog
