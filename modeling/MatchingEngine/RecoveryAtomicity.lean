import MatchingEngine.LadderRuns
import MatchingEngine.Recovery
import MatchingEngine.TopOfBook
import MatchingEngine.UntradedRuns

/-! # What a recovery that throws leaves behind

`recover` changes the book and the trade log event by event, and the sequence counter at the
end. An event is refused by the factory or by the book that the events before it have led to. -/
namespace RecoveryAtomicity

open EngineTypes
open Orders
open OrderBook
open PriceTimeBook
open BookInvariant
open BookRefinement
open BookRuns
open LadderRuns
open Journal
open EngineMachine
open EngineInvariant
open Recovery
open TopOfBook
open Transitions
open UntradedRuns

/-! ## Events as commands -/

/-- The command of an event; the factory refuses to build the order of the others. -/
def commandOf (ev : JournalEvent) : Option Command :=
  match ev.type with
  | .cancel => some (.cancel ev.orderId)
  | .submit =>
    match h : createOrder ev.kind ev.orderId ev.traderId ev.side ev.quantity ev.price with
    | .error _ => none
    | .ok o => some (.submit ⟨o, createOrder_valid h⟩)

/-- The id of a submitted order stands in one of the queues. -/
def refuses (L : Ladder) : Command → Bool
  | .submit order => Ladder.holds L order.1.id
  | .cancel _ => false

/-- The commands of the events before the first that is refused. -/
def untilRefused : Ladder → List JournalEvent → List Command
  | _, [] => []
  | L, ev :: evs =>
    match commandOf ev with
    | none => []
    | some cmd =>
      if refuses L cmd then [] else cmd :: untilRefused (Ladder.next L cmd.call) evs

def NoneRefused (L : Ladder) (evs : List JournalEvent) : Prop :=
  (untilRefused L evs).length = evs.length

instance (L : Ladder) (evs : List JournalEvent) : Decidable (NoneRefused L evs) :=
  inferInstanceAs (Decidable (_ = _))

theorem applyEvent_built {ev : JournalEvent} {cmd : Command} (h : commandOf ev = some cmd) :
    applyEvent ev = applyCommand cmd := by
  rw [commandOf] at h
  rw [applyEvent]
  cases htype : ev.type with
  | cancel =>
    rw [htype] at h
    cases h
    rfl
  | submit =>
    rw [htype] at h
    simp only at h ⊢
    split at h
    · cases h
    · rename_i o hcreate
      cases h
      simp only [hcreate]
      rfl

theorem applyEvent_not_built {ev : JournalEvent} (h : commandOf ev = none) (c : Core) :
    ∃ f, (applyEvent ev).run c = .error f c := by
  rw [commandOf] at h
  rw [applyEvent]
  cases htype : ev.type with
  | cancel =>
    rw [htype] at h
    cases h
  | submit =>
    rw [htype] at h
    simp only at h ⊢
    split at h
    · rename_i f hcreate
      rw [hcreate]
      exact ⟨f, rfl⟩
    · cases h

theorem refuses_iff {b : Book} (h : Invariant b) (cmd : Command) :
    refuses (resting b) cmd = false ↔ Fresh b cmd := by
  cases cmd with
  | submit order => rw [refuses, not_holds_iff h, fresh_iff h]
  | cancel id => exact ⟨fun _ => fresh_cancel b id, fun _ => rfl⟩

/-! ## The replay -/

/-- The core after the calls of the commands. -/
def applied (c : Core) (cmds : List Command) : Core :=
  ⟨run c.book (calls cmds), c.tradeLog ++ trades c.book (calls cmds), c.nextSeq⟩

theorem applied_cons (c : Core) (cmd : Command) (cmds : List Command) :
    applied c (cmd :: cmds) = applied
      ⟨step c.book cmd.call, c.tradeLog ++ returned ((perform cmd.call).run c.book), c.nextSeq⟩
      cmds := by
  simp only [applied, calls, List.map_cons, run_cons, trades, List.append_assoc]

/-- A replay applies the events up to the first refused one, and throws there. -/
theorem replay_outcome {c : Core} (h : Invariant c.book) (evs : List JournalEvent) (m : UInt64) :
    (NoneRefused (resting c.book) evs → (replay evs m).run c =
      .ok (maxSeq evs m) (applied c (untilRefused (resting c.book) evs))) ∧
    (¬ NoneRefused (resting c.book) evs → ∃ f, (replay evs m).run c =
      .error f (applied c (untilRefused (resting c.book) evs))) := by
  have hnothing : applied c [] = c := by simp [applied, calls, trades]
  induction evs generalizing c m with
  | nil =>
    rw [untilRefused, hnothing]
    exact ⟨fun _ => rfl, fun hn => absurd rfl hn⟩
  | cons ev evs ih =>
    rw [replay]
    cases hcmd : commandOf ev with
    | none =>
      obtain ⟨f, hf⟩ := applyEvent_not_built hcmd c
      rw [bind_error hf]
      simp only [NoneRefused, untilRefused, hcmd, List.length_nil, List.length_cons, hnothing]
      exact ⟨fun hn => absurd hn (Nat.succ_ne_zero _).symm, fun _ => ⟨f, rfl⟩⟩
    | some cmd =>
      rw [applyEvent_built hcmd]
      cases hr : refuses (resting c.book) cmd with
      | true =>
        have hf : ¬ Fresh c.book cmd := by
          rw [← refuses_iff h, hr]
          exact Bool.noConfusion
        rw [bind_error (applyCommand_rejected h hf)]
        simp only [NoneRefused, untilRefused, hcmd, hr, if_true, List.length_nil,
          List.length_cons, hnothing]
        exact ⟨fun hn => absurd hn (Nat.succ_ne_zero _).symm, fun _ => ⟨_, rfl⟩⟩
      | false =>
        have hok := applyCommand_ok h ((refuses_iff h cmd).mp hr)
        have hrest := ih (c := ⟨step c.book cmd.call,
          c.tradeLog ++ returned ((perform cmd.call).run c.book), c.nextSeq⟩)
          (step_invariant h cmd.call) (max m ev.seq) (by simp [applied, calls, trades])
        rw [bind_ok hok]
        simp only [NoneRefused, untilRefused, hcmd, hr, Bool.false_eq_true, if_false,
          List.length_cons, Nat.add_right_cancel_iff, applied_cons, ← resting_step h]
        exact hrest

theorem recover_outcome {c : Core} (h : Invariant c.book) (evs : List JournalEvent) :
    (NoneRefused (resting c.book) evs → (recover evs).run c =
      .ok () { applied c (untilRefused (resting c.book) evs) with nextSeq := maxSeq evs 0 + 1 }) ∧
    (¬ NoneRefused (resting c.book) evs → ∃ f, (recover evs).run c =
      .error f (applied c (untilRefused (resting c.book) evs))) := by
  obtain ⟨hok, herror⟩ := replay_outcome h evs 0
  constructor
  · intro hn
    rw [recover, bind_ok (hok hn)]
    rfl
  · intro hn
    obtain ⟨f, hf⟩ := herror hn
    exact ⟨f, by rw [recover, bind_error hf]⟩

/-! ## The largest sequence number -/

def largestSeq (evs : List JournalEvent) : ℕ := evs.foldl (fun m ev => max m ev.seq.toNat) 0

theorem toNat_maxSeq_zero (evs : List JournalEvent) : (maxSeq evs 0).toNat = largestSeq evs :=
  toNat_maxSeq evs 0

/-- The counter does not wrap exactly when no event has the largest number there is. -/
theorem toNat_nextSeq (evs : List JournalEvent) :
    (maxSeq evs 0 + 1).toNat = largestSeq evs + 1 ↔ ∀ ev ∈ evs, ev.seq.toNat < 2 ^ 64 - 1 := by
  have hbound : largestSeq evs ≤ 2 ^ 64 - 2 ↔ ∀ ev ∈ evs, ev.seq.toNat ≤ 2 ^ 64 - 2 := by
    rw [largestSeq, foldl_max_le]
    exact ⟨And.right, fun h => ⟨Nat.zero_le _, h⟩⟩
  have hlt := (maxSeq evs 0).toNat_lt
  rw [UInt64.toNat_add, toNat_maxSeq_zero, UInt64.toNat_one]
  rw [toNat_maxSeq_zero] at hlt
  constructor
  · intro h ev hev
    have hle := hbound.mp (by omega) ev hev
    omega
  · intro h
    have hle := hbound.mpr fun ev hev => by
      have := h ev hev
      omega
    omega

/-! ## All or nothing -/

/-- Every event is accepted and applied, and the counter is past all of them. -/
structure Whole (c : Core) (evs : List JournalEvent) (c' : Core) : Prop where
  accepted : NoneRefused (resting c.book) evs
  applied : ∃ cmds, List.Forall₂ (fun ev cmd => commandOf ev = some cmd) evs cmds ∧
    c'.book = run c.book (calls cmds) ∧ c'.tradeLog = c.tradeLog ++ trades c.book (calls cmds)
  nextSeq : c'.nextSeq.toNat = largestSeq evs + 1

def AllOrNothing (c : Core) (evs : List JournalEvent) : Prop :=
  (∃ c', (recover evs).run c = .ok () c' ∧ Whole c evs c') ∨ ∃ f, (recover evs).run c = .error f c

/-- No order takes the price of one that then stands on the other side, and what stands at the
end (the orders that no command cancels, and the submitted ones that no later command cancels)
are the orders that there were. -/
structure Undone (L : Ladder) (cmds : List Command) : Prop where
  untraded : Untraded L (calls cmds)
  restored : standing L (calls cmds) = L

/-- Either no event is refused and no number is the largest there is, or what comes before the
first refused event is undone again. -/
def Harmless (L : Ladder) (evs : List JournalEvent) : Prop :=
  (NoneRefused L evs ∧ ∀ ev ∈ evs, ev.seq.toNat < 2 ^ 64 - 1) ∨
    (¬ NoneRefused L evs ∧ Undone L (untilRefused L evs))

theorem untilRefused_all {L : Ladder} {evs : List JournalEvent} (h : NoneRefused L evs) :
    List.Forall₂ (fun ev cmd => commandOf ev = some cmd) evs (untilRefused L evs) := by
  induction evs generalizing L with
  | nil => exact .nil
  | cons ev evs ih =>
    rw [NoneRefused, untilRefused] at h
    rw [untilRefused]
    cases hcmd : commandOf ev with
    | none => simp [hcmd] at h
    | some cmd =>
      simp only [hcmd] at h ⊢
      cases hr : refuses L cmd with
      | true => simp [hr] at h
      | false =>
        simp only [hr, Bool.false_eq_true, if_false, List.length_cons] at h ⊢
        exact .cons hcmd (ih (Nat.succ.inj h))

theorem untilRefused_eq {L : Ladder} {evs : List JournalEvent} (h : NoneRefused L evs) :
    untilRefused L evs = evs.filterMap commandOf := by
  have hall := untilRefused_all h
  clear h
  generalize untilRefused L evs = cmds at hall
  induction hall with
  | nil => rfl
  | cons hcmd _ ih => rw [List.filterMap_cons_some hcmd, ih]

theorem returned_eq (b : Book) (call : Call) :
    returned ((perform call).run b) = tradesIn (answer b call) := by
  cases call with
  | add order =>
    rw [answer, ask, perform]
    cases hr : (addOrder (order.map Subtype.val)).run b with
    | ok ts b' =>
      rw [bind_ok hr]
      rfl
    | error f b' =>
      rw [bind_error hr]
      rfl
  | cancel id =>
    rw [answer, ask, perform]
    cases hr : (cancelOrder id).run b with
    | ok found b' =>
      rw [bind_ok hr, bind_ok hr]
      rfl
    | error f b' =>
      rw [bind_error hr, bind_error hr]
      rfl

theorem trades_eq_answers (b : Book) (cs : List Call) :
    trades b cs = (answers b cs).flatMap tradesIn := by
  induction cs generalizing b with
  | nil => rfl
  | cons call cs ih => rw [trades, answers, List.flatMap_cons, returned_eq, ih]

/-- No event before the first refused one is answered with an error. -/
theorem untilRefused_answered (L : Ladder) (evs : List JournalEvent) :
    ∀ a ∈ Ladder.answers L (calls (untilRefused L evs)), ∃ x, a = .ok x := by
  induction evs generalizing L with
  | nil => simp [untilRefused, calls, Ladder.answers]
  | cons ev evs ih =>
    rw [untilRefused]
    cases hcmd : commandOf ev with
    | none => simp [calls, Ladder.answers]
    | some cmd =>
      cases hr : refuses L cmd with
      | true => simp [hr, calls, Ladder.answers]
      | false =>
        have hanswer : ∃ x, Ladder.answer L cmd.call = .ok x := by
          cases cmd with
          | submit order => exact ⟨_, if_neg (ne_true_of_eq_false hr)⟩
          | cancel id => exact ⟨_, rfl⟩
        simp only [hr, Bool.false_eq_true, if_false]
        intro a ha
        rcases List.mem_cons.mp ha with rfl | ha
        · exact hanswer
        · exact ih _ a ha

theorem applied_eq_self_iff {c : Core} (h : Invariant c.book) (evs : List JournalEvent) :
    applied c (untilRefused (resting c.book) evs) = c ↔
      Undone (resting c.book) (untilRefused (resting c.book) evs) := by
  have hanswered := untilRefused_answered (resting c.book) evs
  generalize untilRefused (resting c.book) evs = cmds at hanswered ⊢
  obtain ⟨htrades, hleft⟩ := untraded_run (resting_sorted h) hanswered
  obtain ⟨hanswers, hqueues⟩ := run_refines h (calls cmds)
  rw [← hanswers, ← trades_eq_answers] at htrades
  rw [← hqueues] at hleft
  constructor
  · intro heq
    have hbook : run c.book (calls cmds) = c.book := congrArg Core.book heq
    have hlog : c.tradeLog ++ trades c.book (calls cmds) = c.tradeLog := congrArg Core.tradeLog heq
    have huntraded := htrades.mp (List.append_right_eq_self.mp hlog)
    exact ⟨huntraded, by rw [← hleft huntraded, hbook]⟩
  · rintro ⟨huntraded, hrestored⟩
    have hbook : run c.book (calls cmds) = c.book :=
      book_ext h (invariant_run h _) ((hleft huntraded).trans hrestored)
    rw [applied, htrades.mpr huntraded, hbook, List.append_nil]

theorem resting_emptyBook : resting emptyBook = fun _ => [] := by
  funext side
  cases side <;> rfl

/-- For an engine with an empty book: nothing trades, and every limit order is cancelled again. -/
theorem undone_fresh_iff (cmds : List Command) : Undone (resting emptyBook) cmds ↔
    Untraded (resting emptyBook) (calls cmds) ∧ ∀ o ∈ survivors (calls cmds), o.1.price = none := by
  rw [← standing_nothing_iff, ← resting_emptyBook]
  exact ⟨fun h => ⟨h.untraded, h.restored⟩, fun h => ⟨h.1, h.2⟩⟩

/-- `recover` is all or nothing on the harmless lists, and on no others. -/
theorem recover_all_or_nothing_iff (c : Core) (hran : Ran c.book) (evs : List JournalEvent) :
    AllOrNothing c evs ↔ Harmless (resting c.book) evs := by
  have h : Invariant c.book := hran.invariant
  obtain ⟨hok, herror⟩ := recover_outcome h evs
  by_cases hn : NoneRefused (resting c.book) evs
  · have hrun := hok hn
    constructor
    · rintro (⟨c', hrun', _, _, hseq⟩ | ⟨f, hrun'⟩)
      · rw [hrun] at hrun'
        cases hrun'
        exact .inl ⟨hn, (toNat_nextSeq evs).mp hseq⟩
      · rw [hrun] at hrun'
        cases hrun'
    · rintro (⟨_, hseq⟩ | ⟨hrefused, _⟩)
      · exact .inl ⟨_, hrun, hn, ⟨_, untilRefused_all hn, rfl, rfl⟩, (toNat_nextSeq evs).mpr hseq⟩
      · exact absurd hn hrefused
  · obtain ⟨f, hrun⟩ := herror hn
    constructor
    · rintro (⟨c', hrun', _⟩ | ⟨f', hrun'⟩)
      · rw [hrun] at hrun'
        cases hrun'
      · have hsame : applied c (untilRefused (resting c.book) evs) = c := by
          rw [hrun] at hrun'
          injection hrun'
        exact .inr ⟨hn, (applied_eq_self_iff h evs).mp hsame⟩
    · rintro (⟨hall, _⟩ | ⟨_, hundone⟩)
      · exact absurd hall hn
      · rw [(applied_eq_self_iff h evs).mpr hundone] at hrun
        exact .inr ⟨f, hrun⟩

theorem recover_all_or_nothing_iff_one_ask :
    AllOrNothing freshCore [makeSubmitEvent (NewOrder.limit 1 1 .sell 5 five_pos .hundred).1 1 0] :=
  (recover_all_or_nothing_iff freshCore ⟨[], rfl⟩ _).mpr (.inl ⟨by decide +kernel, by decide⟩)

/-- An engine is sent an order, and the same order again while it rests. -/
def duplicateSubmit : List Event :=
  [.start, .control, .control, .control,
    .push 1 (.submit (NewOrder.limit 1 1 .sell 5 five_pos .hundred)),
    .push 1 (.submit (NewOrder.limit 1 1 .sell 5 five_pos .hundred))] ++ List.replicate 7 (.loop 0)

theorem duplicateSubmit_recovers : (events (initial (⟨[]⟩ : InMemoryJournal)) duplicateSubmit).map
    (fun s => (((recover s.journal.events).run freshCore matches .error _ _),
      getBestAsk (stateAfter ((recover s.journal.events).run freshCore)).book,
      (stateAfter ((recover s.journal.events).run freshCore)).nextSeq,
      largestSeq s.journal.events)) = some (true, some .hundred, 1, 2) := by
  decide +kernel

/-- The log that it leaves is half replayed by the next process: the ask is back in the book,
and the next command gets a number that is in the log. -/
theorem recover_half_rebuilt : ∃ s, Reachable Lives (initial (⟨[]⟩ : InMemoryJournal)) s ∧
    ¬ AllOrNothing freshCore (IJournal.loadAll s.journal) ∧
    (stateAfter ((recover (IJournal.loadAll s.journal)).run freshCore)).nextSeq.toNat ≤
      largestSeq (IJournal.loadAll s.journal) := by
  obtain ⟨s, hs, hobs⟩ := Option.map_eq_some_iff.mp duplicateSubmit_recovers
  simp only [Prod.mk.injEq] at hobs
  obtain ⟨hthrows, hask, hnext, hlargest⟩ := hobs
  refine ⟨s, lives_of_events hs, ?_, ?_⟩
  · rintro (⟨c', hrun, _⟩ | ⟨f, hrun⟩)
    · change (recover s.journal.events).run freshCore = _ at hrun
      rw [hrun] at hthrows
      cases hthrows
    · change (recover s.journal.events).run freshCore = _ at hrun
      rw [hrun] at hask
      cases hask
  · change (stateAfter ((recover s.journal.events).run freshCore)).nextSeq.toNat ≤
      largestSeq s.journal.events
    rw [hnext, hlargest]
    decide

end RecoveryAtomicity
