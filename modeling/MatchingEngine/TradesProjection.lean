import MatchingEngine.DurableLog
import MatchingEngine.FlushCheckpoint

/-! # The trades table as a projection of the events table

An event and its trades are handed over at different moments and can be committed in different
batches. `recover()` rebuilds the trades of every committed event in memory and records none of
them, so the table of trades never gets those that a crash has cut off. -/
namespace TradesProjection

open EngineTypes
open Orders
open OrderBook
open BookRuns
open Journal
open BatchLog
open DatabaseJournal
open DatabaseEngine
open EngineMachine
open EngineMoves
open EngineInvariant
open Recovery
open DurableLog
open FlushCheckpoint
open Transitions

/-! ## Runs with their crashes -/

/-- Trades of journaled commands that the matching thread has still to record. -/
def owed (s : Engine PostgresJournal) : List Trade :=
  match pcOf s with
  | .journaled cmd => returned ((perform cmd.call).run s.core.book)
  | .publishing _ ts => ts
  | .logged _ t ts => t :: ts
  | .recorded _ _ ts => ts
  | .sent _ _ ts => ts
  | _ => []

/-- The trade of a record; an event has none. -/
def tradeOf? (r : Record) : Option Trade := (Record.trade? r).map TradeRow.trade

/-- What a crash loses of the journaled commands, in the order of handing over. -/
def uncommitted (s : Engine PostgresJournal) : List (Option Trade) :=
  (s.journal.trace.inHand ++ s.journal.trace.queued).map tradeOf? ++ (owed s).map some

/-- What a crash loses does not begin with a trade. -/
def Clean (s : Engine PostgresJournal) : Prop := (uncommitted s).head?.join = none

instance (s : Engine PostgresJournal) : Decidable (Clean s) :=
  inferInstanceAs (Decidable (_ = none))

/-- No resting id is submitted, no transaction fails, and the numbers fit the signed column. -/
structure Sane (s : Engine PostgresJournal) : Prop where
  fresh : ∀ cmd ∈ unapplied (pcOf s), Fresh s.core.book cmd
  kept : ∀ b ∈ s.journal.trace.batches, b.kept = true
  few : s.core.nextSeq.toNat ≤ 2 ^ 63

theorem Sane.sound {s : Engine PostgresJournal} (h : Sane s) : Sound s :=
  sound_of_kept h.fresh h.kept h.few

/-- A run from empty tables, with the states in which its processes ended. -/
inductive Chronicle : List (Engine PostgresJournal) → Engine PostgresJournal → Prop
  | empty : Chronicle [] (initial (openJournal ⟨[], []⟩))
  | run {crashes : List (Engine PostgresJournal)} {s s' : Engine PostgresJournal}
      (h : Chronicle crashes s) (hsane : Sane s) (hs : Step s s') : Chronicle crashes s'
  | crash {crashes : List (Engine PostgresJournal)} {s : Engine PostgresJournal}
      (h : Chronicle crashes s) (hsane : Sane s) : Chronicle (crashes ++ [s]) (restarted s)

/-- Buy id, sell id, price and quantity. -/
abbrev Fill := OrderId × OrderId × Double × Int32

def rowFill (row : TradesRow) : Fill :=
  (row.buyOrderId.toUInt64, row.sellOrderId.toUInt64, row.price, row.quantity)

def fillOf (t : Trade) : Fill := (t.buyOrderId, t.sellOrderId, t.price.val, t.quantity)

/-- The table of trades has what replaying the table of events from an empty book returns. -/
def Projected (s : Engine PostgresJournal) : Prop :=
  ∃ c, (recover (loadAll s.journal)).run freshCore = .ok () c ∧
    s.journal.db.trades.map rowFill = c.tradeLog.map fillOf

variable {crashes : List (Engine PostgresJournal)} {old base : List Command}
  {s s' : Engine PostgresJournal}

theorem Chronicle.reachable (h : Chronicle crashes s) :
    Reachable Lives (initial (openJournal ⟨[], []⟩)) s := by
  induction h with
  | empty => exact .initial
  | run _ _ hs ih => exact .next ih trivial (.run hs)
  | crash _ _ ih => exact .next ih trivial (.crash _)

/-! ## Commands and their trades -/

/-- The trades of each command, applied in order after those of `base`. -/
def groups (base : List Command) : List Command → List (List Trade)
  | [] => []
  | cmd :: cmds =>
    returned ((perform cmd.call).run (stateAt base).1) :: groups (base ++ [cmd]) cmds

theorem groups_take (base cmds : List Command) (k : ℕ) :
    (groups base cmds).take k = groups base (cmds.take k) := by
  induction cmds generalizing base k with
  | nil => simp [groups]
  | cons cmd cmds ih =>
    cases k with
    | zero => rfl
    | succ k => rw [groups, List.take_succ_cons, List.take_succ_cons, groups, ih]

theorem groups_concat (base cmds : List Command) (cmd : Command) :
    groups base (cmds ++ [cmd]) =
      groups base cmds ++ [returned ((perform cmd.call).run (stateAt (base ++ cmds)).1)] := by
  induction cmds generalizing base with
  | nil => simp [groups]
  | cons d cmds ih => simp [groups, ih]

theorem groups_flatten (base cmds : List Command) :
    (stateAt base).2 ++ (groups base cmds).flatten = (stateAt (base ++ cmds)).2 := by
  induction cmds generalizing base with
  | nil => simp [groups]
  | cons cmd cmds ih =>
    have hrest := ih (base ++ [cmd])
    rw [stateAt_concat] at hrest
    simpa [groups] using hrest

/-! ## One life -/

/-- The records of this life, and what is still owed, are the commands with their trades. -/
def Scripted (base : List Command) (s : Engine PostgresJournal) : Prop :=
  (log s.journal).map tradeOf? ++ (owed s).map some =
    marked (groups base (s.trace.applied ++ unapplied (pcOf s)))

theorem Scripted.frame (h : Scripted base s) (hlog : log s'.journal = log s.journal)
    (howed : owed s' = owed s)
    (hcmds : s'.trace.applied ++ unapplied (pcOf s') = s.trace.applied ++ unapplied (pcOf s)) :
    Scripted base s' := by
  rw [Scripted, hlog, howed, hcmds]
  exact h

theorem owed_finished (hpc : pcOf s = .finished) : owed s = [] := by
  simp only [owed, hpc]

/-- A matching thread that comes or goes has nothing in hand. -/
theorem scripted_control (hc : ControlInvariant s) (h : Scripted base s) (hm : ControlMove s s') :
    Scripted base s' := by
  have hnone : ∀ {t : Engine PostgresJournal}, pcOf s = .finished → t.journal = s.journal →
      t.trace = s.trace → owed t = [] → unapplied (pcOf t) = [] → Scripted base t := by
    intro t hpc hjournal htrace howed hunapplied
    refine h.frame (by rw [hjournal]) (by rw [howed, owed_finished hpc]) ?_
    rw [htrace, hunapplied, hpc]
    rfl
  cases hm with
  | startJoin hc hj => exact hnone (pcOf_joined hj) rfl rfl rfl rfl
  | stopJoin mark hc hj => exact hnone (pcOf_joined hj) rfl rfl rfl rfl
  | startLaunch hlaunch =>
    simp only [ControlInvariant, hlaunch] at hc
    have hpc : pcOf s = .finished := by
      rw [pcOf, hc.2.1]
      rfl
    exact hnone hpc rfl rfl rfl rfl
  | _ => exact h.frame rfl rfl rfl

theorem scripted_loop {now : Int64} (hp : ProcessInvariant old base s) (hsane : Sane s)
    (h : Scripted base s) (hm : LoopMove now s s') : Scripted base s' := by
  cases hm with
  | journal cmd hpc =>
    -- The event opens the group of the command, and all of its trades are owed.
    have hlog := log_append s.journal (cmd.event s.core.nextSeq now)
    simp only [Scripted, owed, pcOf, hpc, Option.getD_some, unapplied, List.append_nil,
      List.map_nil] at h
    simp only [Scripted, owed, pcOf, journalCommand, IJournal.append, Option.getD_some, unapplied,
      hlog, List.map_append, h, groups_concat, marked_append, ← hp.book]
    simp [tradeOf?, Record.trade?]
  | apply cmd ts core hpc hr =>
    obtain ⟨_, rfl, _⟩ := applied_fresh hp.reachable_book hr
    refine h.frame rfl ?_ ?_
    · simp [owed, pcOf, hpc]
    · simp [pcOf, hpc, unapplied]
  | reject cmd f core hpc hr =>
    have hf : Fresh s.core.book cmd := hsane.fresh cmd (by simp [pcOf, hpc, unapplied])
    exact absurd hf (rejected_unchanged hp.reachable_book hr).1
  | record cmd t ts hpc =>
    -- The trade moves from what is owed to the log.
    have hlog := log_recordTrade s.journal t now
    simp only [Scripted, owed, pcOf, hpc, Option.getD_some, unapplied, List.append_nil] at h
    simp only [Scripted, owed, pcOf, IJournal.recordTrade, Option.getD_some, unapplied,
      List.append_nil, hlog, ← h]
    simp [tradeOf?, Record.trade?]
  | exit hpc | take _ _ hpc | log _ _ _ hpc | send _ _ _ hpc | callback _ _ _ hpc | report _ hpc =>
    exact h.frame rfl (by simp [owed, pcOf, hpc]) (by simp [pcOf, hpc, unapplied])

theorem scripted_step (h : LogInvariant old base s) (hsane : Sane s) (hscript : Scripted base s)
    (hs : Step s s') : Scripted base s' := by
  cases step_cases hs with
  | control hm => exact scripted_control h.control hscript hm
  | loop now hm => exact scripted_loop h.process hsane hscript hm
  | background j hj =>
    obtain ⟨commits, hj⟩ := hj
    exact hscript.frame (writer_frame h.writer.journal hj).log rfl rfl
  | _ => exact hscript.frame rfl rfl rfl

/-! ## What a crash cuts off -/

/-- The trades of committed events that are lost with the process. -/
def cutOff (s : Engine PostgresJournal) : List Trade :=
  ((uncommitted s).takeWhile Option.isSome).reduceOption

theorem clean_iff : Clean s ↔ cutOff s = [] := by
  rw [Clean, cutOff]
  cases uncommitted s with
  | nil => simp
  | cons r rs => cases r <;> simp

/-- The trades in the batches, in order. -/
def batched (s : Engine PostgresJournal) : List Trade :=
  ((attempted s.journal.trace.batches).map tradeOf?).reduceOption

/-- The commands whose events are in the table. -/
def survivors (base : List Command) (s : Engine PostgresJournal) : List Command :=
  (base ++ s.trace.applied ++ unapplied (pcOf s)).take (s.trace.recovered.length + committed s)

theorem count_events (rs : List Record) :
    (rs.map tradeOf?).countP Option.isNone = (rs.filterMap Record.event?).length := by
  induction rs with
  | nil => rfl
  | cons r rs ih =>
    cases r <;> simp [tradeOf?, Record.trade?, Record.event?, List.filterMap_cons, ih]

theorem members_trades (rs : List Record) :
    (rs.map tradeOf?).reduceOption = (rs.filterMap Record.trade?).map TradeRow.trade := by
  induction rs with
  | nil => rfl
  | cons r rs ih => cases r <;> simp [tradeOf?, Record.trade?, List.filterMap_cons, ih]

/-- Replaying the table of events returns the trades in the batches, and those cut off. -/
theorem trades_survivors (h : LogInvariant old base s) (hsane : Sane s)
    (hscript : Scripted base s) :
    (stateAt (survivors base s)).2 = (stateAt base).2 ++ (batched s ++ cutOff s) := by
  have hcut : (attempted s.journal.trace.batches).map tradeOf? ++ uncommitted s =
      marked (groups base (s.trace.applied ++ unapplied (pcOf s))) := by
    rw [← hscript, uncommitted, log]
    simp
  have hcommitted : ((attempted s.journal.trace.batches).map tradeOf?).countP Option.isNone =
      committed s := by
    rw [count_events, committed, kept_of_all hsane.kept]
  have hgroups := marked_cut hcut
  rw [hcommitted, groups_take] at hgroups
  rw [survivors, ← h.loaded, List.append_assoc, List.take_length_add_append, ← groups_flatten,
    ← marked_members, hgroups, List.reduceOption_append]
  rfl

/-- The table of trades has what it was opened with, and the trades in the batches. -/
theorem trades_table (h : JournalInvariant s.journal) (hsane : Sane s) :
    s.journal.db.trades.map rowFill =
      s.journal.trace.opened.trades.map rowFill ++ (batched s).map fillOf := by
  rw [h.trades, kept_of_all hsane.kept, batched, members_trades, List.map_append, List.map_map,
    List.map_map]
  rfl

/-! ## Any number of lives -/

/-- The rows are short of the trades by what the crashes have cut off. -/
structure Accounted (crashes : List (Engine PostgresJournal)) (rows : List TradesRow)
    (ts : List Trade) : Prop where
  count : rows.length + (crashes.map fun c => (cutOff c).length).sum = ts.length
  fills : (∀ c ∈ crashes, Clean c) → rows.map rowFill = ts.map fillOf

theorem Accounted.fills_iff {rows : List TradesRow} {ts : List Trade}
    (h : Accounted crashes rows ts) :
    rows.map rowFill = ts.map fillOf ↔ ∀ c ∈ crashes, Clean c := by
  refine ⟨?_, h.fills⟩
  intro hsame c hc
  have hcount := h.count
  have hlen : rows.length = ts.length := by simpa using congrArg List.length hsame
  have hzero : (crashes.map fun c => (cutOff c).length).sum = 0 := by omega
  rw [clean_iff, ← List.length_eq_zero_iff]
  exact List.sum_eq_zero_iff.mp hzero _ (List.mem_map.mpr ⟨c, hc, rfl⟩)

/-- What one life adds to both tables. -/
theorem accounted_life (h : LogInvariant old base s) (hsane : Sane s) (hscript : Scripted base s)
    (hopened : Accounted crashes s.journal.trace.opened.trades (stateAt base).2) :
    Accounted (crashes ++ [s]) s.journal.db.trades (stateAt (survivors base s)).2 := by
  have hrows := trades_table h.writer.journal hsane
  have hlen : s.journal.db.trades.length =
      s.journal.trace.opened.trades.length + (batched s).length := by
    simpa using congrArg List.length hrows
  rw [trades_survivors h hsane hscript]
  constructor
  · simp only [List.map_append, List.map_singleton, List.sum_append, List.sum_singleton,
      List.length_append, hlen, ← hopened.count]
    omega
  · intro hclean
    rw [List.forall_mem_append, List.forall_mem_singleton, clean_iff] at hclean
    rw [hrows, hopened.fills hclean.1, hclean.2]
    simp

structure ChronicleInvariant (crashes : List (Engine PostgresJournal)) (old base : List Command)
    (s : Engine PostgresJournal) : Prop where
  log : LogInvariant old base s
  scripted : Scripted base s
  opened : Accounted crashes s.journal.trace.opened.trades (stateAt base).2

theorem chronicle_invariant (h : Chronicle crashes s) :
    ∃ old base, ChronicleInvariant crashes old base s := by
  induction h with
  | empty =>
    exact ⟨[], [], log_initial, rfl, rfl, fun _ => rfl⟩
  | run h hsane hs ih =>
    obtain ⟨old, base, hlog, hscript, hopened⟩ := ih
    refine ⟨old, base, log_run hlog hsane.sound hs, scripted_step hlog hsane hscript hs, ?_⟩
    rw [opened_move hlog.writer (step_moves hs)]
    exact hopened
  | crash h hsane ih =>
    obtain ⟨old, base, hlog, hscript, hopened⟩ := ih
    exact ⟨_, _, log_crash hlog hsane.sound, rfl, accounted_life hlog hsane hscript hopened⟩

/-- When the `flush()` of `stop()` returns, nothing is left to commit. -/
theorem uncommitted_flushed {mark target : ℕ} (h : Chronicle crashes s)
    (hcontrol : s.control = .stopWait mark target)
    (hflushed : IJournal.flushed s.journal target = true) : uncommitted s = [] := by
  obtain ⟨hw, hc⟩ := engine_invariant h.reachable
  simp only [FlushControl, hcontrol] at hc
  obtain ⟨hthread, htarget⟩ := hc
  have hdone := done_of_flushed hflushed hw.opened
  have hcounted := hw.journal.done
  rw [htarget, hw.journal.enqueued, log, List.append_assoc, List.length_append] at hdone
  have hempty : s.journal.trace.inHand ++ s.journal.trace.queued = [] := by
    apply List.eq_nil_of_length_eq_zero
    omega
  have hpc : pcOf s = .finished := by
    rw [pcOf, hthread]
    rfl
  rw [uncommitted, hempty, owed_finished hpc]
  rfl

/-- After `stop()`, the table of trades has what the table of events replays to exactly when no
process ended between the commit of an event and that of the last of its trades. -/
theorem projected_iff_clean {mark target : ℕ} (h : Chronicle crashes s) (hsane : Sane s)
    (hcontrol : s.control = .stopWait mark target)
    (hflushed : IJournal.flushed s.journal target = true) :
    Projected s ↔ ∀ c ∈ crashes, Clean c := by
  obtain ⟨old, base, hlog, hscript, hopened⟩ := chronicle_invariant h
  have hclean : Clean s := by rw [Clean, uncommitted_flushed h hcontrol hflushed]; rfl
  have hlife := (accounted_life hlog hsane hscript hopened).fills_iff
  rw [List.forall_mem_append, List.forall_mem_singleton, and_iff_left hclean] at hlife
  rw [← hlife, Projected, recover_table hlog hsane.sound (table_committed hlog hsane.sound)]
  constructor
  · rintro ⟨c, hc, hfills⟩
    cases hc
    exact hfills
  · intro hfills
    exact ⟨_, rfl, hfills⟩

/-! ## A trade that is cut off -/

theorem sane_of_check (h : Chronicle crashes s) (hcheck : soundCheck s = true) : Sane s := by
  obtain ⟨old, base, hi⟩ := chronicle_invariant h
  obtain ⟨hfresh, hkept, hfew⟩ := check_passed hi.log.process hcheck
  exact ⟨hfresh, hkept, hfew⟩

theorem schedule_chronicle {es : List (Event ⊕ Bool)} (h : Chronicle crashes s)
    (hs : schedule soundCheck s es = some s') : Chronicle crashes s' ∧ Sane s' := by
  obtain ⟨hrun, hok⟩ := schedule_keeps (I := Chronicle crashes)
    (fun s s' h hok hs => .run h (sane_of_check h hok) hs) h hs
  exact ⟨hrun, sane_of_check hrun hok⟩

/-- The last states of a process and of the one after it. -/
def twoLives (first second : List (Event ⊕ Bool)) :
    Option (Engine PostgresJournal × Engine PostgresJournal) :=
  (schedule soundCheck (initial (openJournal ⟨[], []⟩)) first).bind fun s =>
    (schedule soundCheck (restarted s) second).map fun s' => (s, s')

theorem twoLives_chronicle {first second : List (Event ⊕ Bool)}
    (hs : twoLives first second = some (s, s')) : Chronicle [s] s' ∧ Sane s' := by
  obtain ⟨t, ht, hrest⟩ := Option.bind_eq_some_iff.mp hs
  obtain ⟨t', ht', hends⟩ := Option.map_eq_some_iff.mp hrest
  obtain ⟨rfl, rfl⟩ := Prod.mk.inj hends
  obtain ⟨hrun, hsane⟩ := schedule_chronicle .empty ht
  exact schedule_chronicle (.crash hrun hsane) ht'

/-- Two orders trade. The writer commits both events, and the trade is recorded and sent. -/
def traded : List (Event ⊕ Bool) :=
  [.inl .start, .inl .control, .inl .control, .inl .control,
    .inl (.push 1 (.submit (NewOrder.limit 1 1 .sell 5 five_pos .hundred))),
    .inl (.push 2 (.submit (NewOrder.market 2 2 .buy 3 three_pos))),
    .inl (.loop 0), .inl (.loop 0), .inl (.loop 0), .inl (.loop 0), .inl (.loop 0), .inl (.loop 0),
    .inr true, .inr true, .inl (.loop 0), .inl (.loop 0), .inl (.loop 0), .inl (.loop 0)]

/-- The writer counts its batch, takes the trade and commits it. -/
def committedToo : List (Event ⊕ Bool) := traded ++ [.inr true, .inr true, .inr true]

def startStop : List (Event ⊕ Bool) :=
  [.inl .start, .inl .control, .inl .control, .inl .control, .inl .stop, .inl .control,
    .inl (.loop 0), .inl .control, .inl .control]

/-- Control state, what `flush()` waits for, the rows of the table of trades, how many trades the
table of events replays to, and whether the crash was clean. -/
def outcome (p : Engine PostgresJournal × Engine PostgresJournal) :
    ControlPc × Bool × ℕ × ℕ × Bool :=
  (p.2.control, IJournal.flushed p.2.journal 0, p.2.journal.db.trades.length,
    (stateAfter ((recover (loadAll p.2.journal)).run freshCore)).tradeLog.length,
    decide (Clean p.1))

theorem traded_ends : (twoLives traded startStop).map outcome =
    some (.stopWait 0 0, true, 0, 1, false) := by
  decide +kernel

theorem committedToo_ends : (twoLives committedToo startStop).map outcome =
    some (.stopWait 0 0, true, 1, 1, true) := by
  decide +kernel

theorem projected_iff_clean_committedToo : ∃ s s', twoLives committedToo startStop = some (s, s') ∧
    s'.journal.db.trades.length = 1 ∧ Projected s' := by
  obtain ⟨⟨s, s'⟩, hs, hobs⟩ := Option.map_eq_some_iff.mp committedToo_ends
  simp only [outcome, Prod.mk.injEq, decide_eq_true_eq] at hobs
  obtain ⟨hcontrol, hflushed, hrows, _, hclean⟩ := hobs
  obtain ⟨hrun, hsane⟩ := twoLives_chronicle hs
  have hcrashes : ∀ c ∈ [s], Clean c := List.forall_mem_singleton.mpr hclean
  exact ⟨s, s', hs, hrows, (projected_iff_clean hrun hsane hcontrol hflushed).mpr hcrashes⟩

/-- Nobody records again the trade that the crash has cut off. -/
theorem projected_fails : ¬ ∀ crashes s mark target, Chronicle crashes s → Sane s →
    s.control = .stopWait mark target → IJournal.flushed s.journal target = true →
    Projected s := by
  intro hall
  obtain ⟨⟨s, s'⟩, hs, hobs⟩ := Option.map_eq_some_iff.mp traded_ends
  simp only [outcome, Prod.mk.injEq] at hobs
  obtain ⟨hcontrol, hflushed, hrows, hreplayed, _⟩ := hobs
  obtain ⟨hrun, hsane⟩ := twoLives_chronicle hs
  obtain ⟨c, hrecover, hfills⟩ := hall [s] s' 0 0 hrun hsane hcontrol hflushed
  rw [hrecover, stateAfter] at hreplayed
  have hlen := congrArg List.length hfills
  rw [List.length_map, List.length_map, hrows, hreplayed] at hlen
  cases hlen

end TradesProjection
