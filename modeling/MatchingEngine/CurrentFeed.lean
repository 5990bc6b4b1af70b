import MatchingEngine.RecoveryAtomicity

/-! # The feed and the top of book after a recovery

`recover` applies the journal without a word to the sink; the matching loop reports after each
command. The state after recovery is followed through every later step of the engine. -/
namespace CurrentFeed

open EngineTypes
open Orders
open OrderBook
open PriceTimeBook
open BookInvariant
open BookRuns
open LadderRuns
open Journal
open EngineMachine
open EngineMoves
open EngineInvariant
open Recovery
open RecoveryAtomicity
open Transitions

def isTop : SinkCall → Bool
  | .onTopOfBook _ _ _ _ => true
  | .onTrade _ _ => false

/-- The latest `onTopOfBook` call. Before the first one, a reader knows of no price. -/
def shown (calls : List SinkCall) : SinkCall :=
  ((calls.filter isTop).getLast?).getD (.onTopOfBook false Double.zero false Double.zero)

/-- The flags, and the price under each flag that is set, are those of the book. -/
def Agrees (b : Book) : SinkCall → Prop
  | .onTopOfBook hasBid bid hasAsk ask =>
    (hasBid = (getBestBid b).isSome ∧ ∀ p, getBestBid b = some p → bid = p.val) ∧
      (hasAsk = (getBestAsk b).isSome ∧ ∀ p, getBestAsk b = some p → ask = p.val)
  | .onTrade _ _ => False

section

variable {J : Type} [IJournal J] {s s' : Engine J} {j : J}

/-- No command is between its application and its report. -/
def Processed (s : Engine J) : Prop := publishing (pcOf s) = none

/-- The commands of the events, one after the other, leave both queues empty. -/
def LeavesNothing (evs : List JournalEvent) : Prop :=
  ∀ side, ((calls (evs.filterMap commandOf)).foldl Ladder.next (fun _ => [])) side = []

theorem agrees_topOfBook (b : Book) : Agrees b (topOfBook b) := by
  refine ⟨⟨rfl, ?_⟩, rfl, ?_⟩
  · intro p hp
    rw [hp]
    rfl
  · intro p hp
    rw [hp]
    rfl

theorem agrees_nothing (b : Book) :
    Agrees b (.onTopOfBook false Double.zero false Double.zero) ↔
      getBestBid b = none ∧ getBestAsk b = none := by
  constructor
  · rintro ⟨⟨hbid, _⟩, hask, _⟩
    exact ⟨Option.not_isSome_iff_eq_none.mp (by rw [← hbid]; exact Bool.noConfusion),
      Option.not_isSome_iff_eq_none.mp (by rw [← hask]; exact Bool.noConfusion)⟩
  · rintro ⟨hbid, hask⟩
    simp [Agrees, hbid, hask]

/-! ## Every report is of the book that a command has left -/

/-- The top-of-book calls are of the books passed, but for the first of these. -/
def Reported (s : Engine J) : Prop :=
  s.trace.sink.filter isTop = s.trace.passed.tail.map fun p => topOfBook p.1

omit [IJournal J] in
theorem Reported.report (h : Reported s) {b : Book} {log : List Trade} {pc : LoopPc}
    (hne : s.trace.passed ≠ []) : Reported { s with
      thread := some pc
      trace := { s.trace with
        sink := s.trace.sink ++ [topOfBook b]
        passed := s.trace.passed ++ [(b, log)] } } := by
  change (s.trace.sink ++ [topOfBook b]).filter isTop =
    (s.trace.passed ++ [(b, log)]).tail.map fun p => topOfBook p.1
  rw [List.filter_append, h, List.tail_append_of_ne_nil hne, List.map_append]
  rfl

omit [IJournal J] in
theorem passed_ne_nil {old base : List Command} (h : ProcessInvariant old base s) :
    s.trace.passed ≠ [] := by
  rw [h.passed, milestones]
  simp

theorem reported_step {old base : List Command} (hp : ProcessInvariant old base s)
    (h : Reported s) (hs : Step s s') : Reported s' := by
  cases step_moves hs with
  | quiet hcore htrace hjournal =>
    obtain ⟨pushed, htrace⟩ := htrace
    rw [Reported, htrace]
    exact h
  | loop now hm =>
    cases hm with
    | send cmd t ts hpc =>
      change (s.trace.sink ++ [SinkCall.onTrade _ t]).filter isTop = _
      rw [List.filter_append, h]
      exact List.append_nil _
    | report cmd hpc => exact h.report (passed_ne_nil hp)
    | _ => exact h

/-- What a run after the recovery of `base` keeps. -/
structure Live (base : List Command) (s : Engine J) : Prop where
  process : ProcessInvariant [] base s
  control : ControlInvariant s
  reported : Reported s

theorem live_step {base : List Command} (h : Live base s) (hs : Step s s') : Live base s' := by
  obtain ⟨hp, hc⟩ := step_invariant h.process h.control hs
  exact ⟨hp, hc, reported_step h.process h.reported hs⟩

/-! ## After recovery -/

/-- A journal that replays is the record of its own commands. -/
theorem recovered_core {core : Core}
    (hok : (recover (IJournal.loadAll (IJournal.reopen j))).run freshCore = .ok () core) :
    core = recovered ((IJournal.loadAll (IJournal.reopen j)).filterMap commandOf)
      (IJournal.loadAll (IJournal.reopen j)) := by
  obtain ⟨hall, herror⟩ := recover_outcome (c := freshCore) invariant_empty
    (IJournal.loadAll (IJournal.reopen j))
  by_cases hn : NoneRefused (resting freshCore.book) (IJournal.loadAll (IJournal.reopen j))
  · have hcmds := untilRefused_eq hn
    rw [hall hn, hcmds] at hok
    injection hok with _ hcore
    rw [← hcore]
    rfl
  · obtain ⟨f, hf⟩ := herror hn
    rw [hf] at hok
    cases hok

theorem live_recovered {core : Core}
    (hok : (recover (IJournal.loadAll (IJournal.reopen j))).run freshCore = .ok () core) :
    Live ((IJournal.loadAll (IJournal.reopen j)).filterMap commandOf) (restarted (initial j)) where
  process := by
    have hcore : (restarted (initial j)).core =
        recovered ((IJournal.loadAll (IJournal.reopen j)).filterMap commandOf)
          (IJournal.loadAll (IJournal.reopen j)) := by
      rw [← recovered_core hok]
      exact congrArg stateAfter hok
    exact restarted_process hcore
  control := rfl
  reported := rfl

theorem live_reachable {base : List Command} {s₀ : Engine J} (h₀ : Live base s₀)
    (h : Reachable Step s₀ s) : Live base s :=
  h.invariant h₀ fun _ _ hi _ hs => live_step hi hs

omit [IJournal J] in
/-- Between two commands, the last report is of the book as it stands. -/
theorem shown_current {base : List Command} (h : Live base s) (hp : Processed s)
    (happlied : s.trace.applied ≠ []) : shown s.trace.sink = topOfBook s.core.book := by
  have hsettled : settled s.trace.applied (pcOf s) = s.trace.applied.length := by
    rw [settled, show publishing (pcOf s) = none from hp]
    rfl
  have hlast : s.trace.passed.getLast? = some (stateAt (base ++ s.trace.applied)) := by
    rw [h.process.passed, hsettled, milestones_getLast, List.take_length]
  have htail : s.trace.passed.tail.getLast? = some (stateAt (base ++ s.trace.applied)) := by
    have hlen : 1 < s.trace.passed.length := by
      rw [h.process.passed, hsettled, milestones, List.length_map, List.length_range]
      have := List.length_pos_iff.mpr happlied
      omega
    rw [List.getLast?_tail, if_neg (by omega), hlast]
  rw [shown, h.reported, List.getLast?_map, htail, h.process.book]
  rfl

omit [IJournal J] in
/-- Before the first command, nothing has been reported of the book that was recovered. -/
theorem shown_nothing {base : List Command} (h : Live base s) (happlied : s.trace.applied = []) :
    shown s.trace.sink = .onTopOfBook false Double.zero false Double.zero ∧
      s.core.book = run emptyBook (calls base) := by
  constructor
  · have hpassed : s.trace.passed.tail = [] := by
      rw [h.process.passed, happlied, settled]
      split <;> rfl
    rw [shown, h.reported, hpassed]
    rfl
  · rw [h.process.book, happlied, List.append_nil]
    rfl

theorem leavesNothing_iff (evs : List JournalEvent) : LeavesNothing evs ↔
    getBestBid (run emptyBook (calls (evs.filterMap commandOf))) = none ∧
      getBestAsk (run emptyBook (calls (evs.filterMap commandOf))) = none := by
  have hrep := reachable_representation (calls (evs.filterMap commandOf))
  have hqueues := (run_refines invariant_empty (calls (evs.filterMap commandOf))).2
  rw [resting_emptyBook] at hqueues
  rw [LeavesNothing, ← hqueues, ← Option.not_isSome_iff_eq_none, ← Option.not_isSome_iff_eq_none,
    hrep.hasBid, hrep.hasAsk, not_not, not_not]
  constructor
  · exact fun h => ⟨h .buy, h .sell⟩
  · rintro ⟨hbuy, hsell⟩ side
    cases side with
    | buy => exact hbuy
    | sell => exact hsell

/-- After a recovery, the feed shows the top of book once a command has been processed. It does
from the start on exactly when the journal leaves nothing resting. -/
theorem feed_current_iff (j : J) (core : Core)
    (hok : (recover (IJournal.loadAll (IJournal.reopen j))).run freshCore = .ok () core) :
    (∀ s, Reachable Step (restarted (initial j)) s → Processed s → s.trace.applied ≠ [] →
      Agrees s.core.book (shown s.trace.sink)) ∧
    ((∀ s, Reachable Step (restarted (initial j)) s → Processed s →
        Agrees s.core.book (shown s.trace.sink)) ↔
      LeavesNothing (IJournal.loadAll (IJournal.reopen j))) := by
  have hlive := live_recovered hok
  have hlater : ∀ s, Reachable Step (restarted (initial j)) s → Processed s →
      s.trace.applied ≠ [] → Agrees s.core.book (shown s.trace.sink) := by
    intro s hs hp happlied
    rw [shown_current (live_reachable hlive hs) hp happlied]
    exact agrees_topOfBook _
  refine ⟨hlater, ?_⟩
  rw [leavesNothing_iff, ← agrees_nothing]
  constructor
  · intro h
    obtain ⟨hshown, hbook⟩ := shown_nothing hlive rfl
    have hstart := h _ .initial rfl
    rwa [hshown, hbook] at hstart
  · intro h s hs hp
    by_cases happlied : s.trace.applied = []
    · obtain ⟨hshown, hbook⟩ := shown_nothing (live_reachable hlive hs) happlied
      rw [hshown, hbook]
      exact h
    · exact hlater s hs hp happlied

end

/-- A journal whose ask was cancelled again. -/
def cancelledAsk : InMemoryJournal :=
  ⟨[makeSubmitEvent (NewOrder.limit 1 1 .sell 5 five_pos .hundred).1 1 0, makeCancelEvent 1 2 0]⟩

theorem feed_current_iff_cancelled : LeavesNothing cancelledAsk.events ∧
    ∀ s, Reachable Step (restarted (initial cancelledAsk)) s → Processed s →
      Agrees s.core.book (shown s.trace.sink) := by
  have hnothing : LeavesNothing cancelledAsk.events := by
    intro side
    cases side <;> decide +kernel
  exact ⟨hnothing, (feed_current_iff cancelledAsk _ rfl).2.mpr hnothing⟩

/-- A journal with one ask. -/
def restingAsk : InMemoryJournal :=
  ⟨[makeSubmitEvent (NewOrder.limit 1 1 .sell 5 five_pos .hundred).1 1 0]⟩

/-- The ask is back in the book, and the feed has nothing. -/
theorem feed_misses_recovered_ask :
    ((recover restingAsk.events).run freshCore matches .ok _ _) = true ∧
    getBestAsk (restarted (initial restingAsk)).core.book = some .hundred ∧
    shown (restarted (initial restingAsk)).trace.sink =
      .onTopOfBook false Double.zero false Double.zero ∧
    ¬ Agrees (restarted (initial restingAsk)).core.book
      (shown (restarted (initial restingAsk)).trace.sink) := by
  have hask : getBestAsk (restarted (initial restingAsk)).core.book = some .hundred := by
    decide +kernel
  refine ⟨by decide +kernel, hask, rfl, ?_⟩
  intro h
  have hnone := ((agrees_nothing _).mp h).2
  rw [hask] at hnone
  cases hnone

end CurrentFeed
