import MatchingEngine.EngineMachine
import MatchingEngine.MonitorWakeups

/-! # The command queue under its mutex

`ThreadSafeQueue` statement by statement, called from any number of threads, against the queue of
the engine's model, where a call is one step. -/
namespace QueueMonitor

open EngineMachine
open Monitor
open Transitions

variable {ι α : Type} [DecidableEq ι]

/-! ## Calls that are over -/

/-- A call with what it returned. -/
inductive Op (α : Type) where
  | push (item : α)
  | pop (r : Option α)
  | stop
  | reset
  deriving DecidableEq

/-- The calls on `ThreadSafeQueue`, each one step. -/
inductive Performs (q : ThreadSafeQueue α) : Op α → ThreadSafeQueue α → Prop
  | push (item : α) : Performs q (.push item) (q.push item)
  | pop {r : Option α} {q' : ThreadSafeQueue α} : q.pop = some (r, q') → Performs q (.pop r) q'
  | stop : Performs q .stop q.stop
  | reset : Performs q .reset q.reset

/-- Runs of calls by named threads on a new queue. -/
inductive History : List (ι × Op α) → ThreadSafeQueue α → Prop
  | new : History [] ⟨[], false⟩
  | next {ops : List (ι × Op α)} {q q' : ThreadSafeQueue α} {i : ι} {op : Op α} :
      History ops q → Performs q op q' → History (ops ++ [(i, op)]) q'

def Op.pushed? : Op α → Option α
  | .push item => some item
  | _ => none

def Op.popped? : Op α → Option α
  | .pop r => r
  | _ => none

/-- The calls of one thread. -/
def callsOf (i : ι) (ops : List (ι × Op α)) : List (Op α) :=
  (ops.filter fun e => e.1 = i).map Prod.snd

@[simp] theorem callsOf_concat_self (i : ι) (ops : List (ι × Op α)) (op : Op α) :
    callsOf i (ops ++ [(i, op)]) = callsOf i ops ++ [op] := by
  simp [callsOf]

theorem callsOf_concat_other {i j : ι} (h : j ≠ i) (ops : List (ι × Op α)) (op : Op α) :
    callsOf i (ops ++ [(j, op)]) = callsOf i ops := by
  simp [callsOf, h]

omit [DecidableEq ι] in
/-- Every item pushed is popped once, in order, or still queued. -/
theorem History.account {ops : List (ι × Op α)} {q : ThreadSafeQueue α} (h : History ops q) :
    ops.filterMap (fun e => e.2.pushed?) =
      ops.filterMap (fun e => e.2.popped?) ++ q.items := by
  induction h with
  | new => rfl
  | @next ops q q' i op _ hp ih =>
    rw [List.filterMap_append, List.filterMap_append, ih]
    cases hp with
    | push item => simp [Op.pushed?, Op.popped?, ThreadSafeQueue.push]
    | @pop r q' hpop =>
      rcases q with ⟨_ | ⟨item, items⟩, stopping⟩
      · cases stopping <;> simp_all [ThreadSafeQueue.pop, Op.pushed?, Op.popped?]
        obtain ⟨rfl, rfl⟩ := hpop
        simp
      · simp only [ThreadSafeQueue.pop, Option.some.injEq, Prod.mk.injEq] at hpop
        obtain ⟨rfl, rfl⟩ := hpop
        simp [Op.pushed?, Op.popped?]
    | stop => simp [Op.pushed?, Op.popped?, ThreadSafeQueue.stop]
    | reset => simp [Op.pushed?, Op.popped?, ThreadSafeQueue.reset]

/-! ## The code -/

/-- What `mtx_` guards, and the calls in the order of their sections, which is read by no
statement. -/
structure Shared (ι α : Type) where
  queue : List α
  stopping : Bool
  history : List (ι × Op α)

/-- The statement a thread is at. `front()` and `pop()` of an empty `std::queue` are undefined. -/
inductive Pc (α : Type) where
  | idle
  | pushLock (item : α)
  | pushItem (item : α)
  | pushUnlock (item : α)
  | pushNotify (item : α)
  | popLock
  | popWait
  | popTest
  | popFront
  | popRemove (item : α)
  | popUnlock (r : Option α)
  | stopLock
  | stopSet
  | stopUnlock
  | stopNotify
  | resetLock
  | resetClear
  | resetUnlock
  | undefined

/-- A thread with what its calls have returned to it. -/
structure Frame (α : Type) where
  pc : Pc α
  log : List (Op α)

def Pc.entry : Pc α → Prop
  | .pushLock _ | .popLock | .stopLock | .resetLock => True
  | _ => False

def Shared.record (s : Shared ι α) (i : ι) (op : Op α) : Shared ι α :=
  { s with history := s.history ++ [(i, op)] }

def code (i : ι) (f : Frame α) : Instr (Frame α) (Shared ι α) Unit :=
  match f.pc with
  | .idle => .idle fun k => k.pc.entry ∧ k.log = f.log
  | .pushLock item => .lock ⟨.pushItem item, f.log⟩
  | .pushItem item =>
    .access fun s =>
      (({ s with queue := s.queue ++ [item] } : Shared ι α).record i (.push item),
        ⟨.pushUnlock item, f.log⟩)
  | .pushUnlock item => .unlock ⟨.pushNotify item, f.log⟩
  | .pushNotify item => .notifyOne () ⟨.idle, f.log ++ [.push item]⟩
  | .popLock => .lock ⟨.popWait, f.log⟩
  | .popWait => .wait () (fun s => !s.queue.isEmpty || s.stopping) ⟨.popTest, f.log⟩
  | .popTest =>
    .access fun s =>
      if s.queue.isEmpty then (s.record i (.pop none), ⟨.popUnlock none, f.log⟩)
      else (s, ⟨.popFront, f.log⟩)
  | .popFront =>
    .access fun s =>
      match s.queue with
      | item :: _ => (s, ⟨.popRemove item, f.log⟩)
      | [] => (s, ⟨.undefined, f.log⟩)
  | .popRemove item =>
    .access fun s =>
      match s.queue with
      | _ :: rest =>
        (({ s with queue := rest } : Shared ι α).record i (.pop (some item)),
          ⟨.popUnlock (some item), f.log⟩)
      | [] => (s, ⟨.undefined, f.log⟩)
  | .popUnlock r => .unlock ⟨.idle, f.log ++ [.pop r]⟩
  | .stopLock => .lock ⟨.stopSet, f.log⟩
  | .stopSet =>
    .access fun s =>
      (({ s with stopping := true } : Shared ι α).record i .stop, ⟨.stopUnlock, f.log⟩)
  | .stopUnlock => .unlock ⟨.stopNotify, f.log⟩
  | .stopNotify => .notifyAll () ⟨.idle, f.log ++ [.stop]⟩
  | .resetLock => .lock ⟨.resetClear, f.log⟩
  | .resetClear =>
    .access fun s =>
      (({ s with stopping := false } : Shared ι α).record i .reset, ⟨.resetUnlock, f.log⟩)
  | .resetUnlock => .unlock ⟨.idle, f.log ++ [.reset]⟩
  | .undefined => .access fun s => (s, f)

abbrev Threads (ι α : Type) : Type := State ι (Frame α) (Shared ι α) Unit

/-- A new queue that nobody has called yet. -/
def newQueue (ι α : Type) : Threads ι α := start ⟨[], false, []⟩ fun _ => ⟨.idle, []⟩

/-! ## The outline -/

def Pc.holds : Pc α → Bool
  | .pushItem _ | .pushUnlock _ | .popWait | .popTest | .popFront | .popRemove _ | .popUnlock _
  | .stopSet | .stopUnlock | .resetClear | .resetUnlock | .undefined => true
  | _ => false

/-- The call that took effect and has not returned. -/
def Pc.effected : Pc α → List (Op α)
  | .pushUnlock item | .pushNotify item => [.push item]
  | .popUnlock r => [.pop r]
  | .stopUnlock | .stopNotify => [.stop]
  | .resetUnlock => [.reset]
  | _ => []

/-- What a thread knows of the queue while it has the mutex. -/
def Pc.knows (s : Shared ι α) : Pc α → Prop
  | .popTest => s.queue ≠ [] ∨ s.stopping = true
  | .popFront => s.queue ≠ []
  | .popRemove item => s.queue.head? = some item
  | .undefined => False
  | _ => True

def Logged (s : Shared ι α) : Prop := History s.history ⟨s.queue, s.stopping⟩

def Mine (i : ι) (f : Frame α) (s : Shared ι α) : Prop :=
  callsOf i s.history = f.log ++ f.pc.effected

def outline : Outline ι (Frame α) (Shared ι α) where
  holds f := f.pc.holds
  free := Logged
  held i f s := Logged s ∧ Mine i f s ∧ f.pc.knows s
  away i f s := Mine i f s

/-- The section of another thread does not add to the calls of this one. -/
theorem mine_record {i j : ι} (h : j ≠ i) {s : Shared ι α} {f : Frame α} {op : Op α}
    (hm : Mine j f s) : Mine j f (s.record i op) := by
  unfold Mine Shared.record
  rw [callsOf_concat_other (Ne.symm h)]
  exact hm

theorem mine_own {i : ι} {s : Shared ι α} {f : Frame α} {op : Op α} {pc : Pc α}
    (hm : Mine i f s) (hnone : f.pc.effected = []) (hop : pc.effected = [op]) :
    Mine i ⟨pc, f.log⟩ (s.record i op) := by
  unfold Mine Shared.record at *
  rw [callsOf_concat_self, hm, hnone, hop, List.append_nil]

omit [DecidableEq ι] in
/-- A section that performs `op` on what the mutex guards. -/
theorem logged_record {i : ι} {s : Shared ι α} {op : Op α} {queue : List α} {stopping : Bool}
    (h : Logged s) (hp : Performs ⟨s.queue, s.stopping⟩ op ⟨queue, stopping⟩) :
    Logged (({ s with queue := queue, stopping := stopping } : Shared ι α).record i op) :=
  .next h hp

theorem verified (i : ι) (f : Frame α) :
    outline.Verified i f (code i f : Instr (Frame α) (Shared ι α) Unit) := by
  obtain ⟨pc, log⟩ := f
  cases pc with
  | idle =>
    refine ⟨rfl, fun k s hk hm => ?_⟩
    obtain ⟨pc, log'⟩ := k
    obtain ⟨hentry, rfl⟩ := hk
    cases pc <;> first | exact absurd hentry id | exact ⟨rfl, hm⟩
  | pushLock item => exact ⟨rfl, rfl, fun s hfree hm => ⟨hfree, hm, trivial⟩⟩
  | pushItem item =>
    refine ⟨rfl, fun s ⟨hfree, hm, _⟩ => ⟨rfl, ⟨?_, mine_own hm rfl rfl, trivial⟩, ?_⟩⟩
    · exact logged_record hfree (.push item)
    · exact fun j hne f' hj => mine_record hne hj
  | pushUnlock item => exact ⟨rfl, rfl, fun s ⟨hfree, hm, _⟩ => ⟨hfree, hm⟩⟩
  | pushNotify item =>
    refine ⟨rfl, fun s => ⟨fun hh => absurd hh (by simp [outline, Pc.holds]), fun _ hm => ?_⟩⟩
    simpa [outline, Mine, Pc.effected] using hm
  | popLock => exact ⟨rfl, rfl, fun s hfree hm => ⟨hfree, hm, trivial⟩⟩
  | popWait =>
    refine ⟨rfl, rfl, fun s hfree hm => ⟨hfree, hm, trivial⟩, fun s ⟨hfree, hm, _⟩ => ⟨?_, ?_⟩⟩
    · intro hp
      exact ⟨hfree, hm, by simpa [Pc.knows] using hp⟩
    · exact fun _ => ⟨hfree, hm⟩
  | popTest =>
    refine ⟨rfl, fun s ⟨hfree, hm, hknows⟩ => ?_⟩
    obtain ⟨_ | ⟨item, rest⟩, stopping, history⟩ := s
    · obtain rfl : stopping = true := hknows.resolve_left (by simp)
      exact ⟨rfl, ⟨logged_record hfree (.pop rfl), mine_own hm rfl rfl, trivial⟩,
        fun j hne f' hj => mine_record hne hj⟩
    · exact ⟨rfl, ⟨hfree, hm, List.cons_ne_nil _ _⟩, fun j hne f' hj => hj⟩
  | popFront =>
    refine ⟨rfl, fun s ⟨hfree, hm, hknows⟩ => ?_⟩
    obtain ⟨_ | ⟨item, rest⟩, stopping, history⟩ := s
    · exact absurd rfl hknows
    · exact ⟨rfl, ⟨hfree, hm, rfl⟩, fun j hne f' hj => hj⟩
  | popRemove item =>
    refine ⟨rfl, fun s ⟨hfree, hm, hknows⟩ => ?_⟩
    obtain ⟨_ | ⟨item', rest⟩, stopping, history⟩ := s
    · simp [Pc.knows] at hknows
    · obtain rfl : item' = item := by simpa [Pc.knows] using hknows
      exact ⟨rfl, ⟨logged_record hfree (.pop rfl), mine_own hm rfl rfl, trivial⟩,
        fun j hne f' hj => mine_record hne hj⟩
  | popUnlock r =>
    refine ⟨rfl, rfl, fun s ⟨hfree, hm, _⟩ => ⟨hfree, ?_⟩⟩
    simpa [outline, Mine, Pc.effected] using hm
  | stopLock => exact ⟨rfl, rfl, fun s hfree hm => ⟨hfree, hm, trivial⟩⟩
  | stopSet =>
    refine ⟨rfl, fun s ⟨hfree, hm, _⟩ => ⟨rfl, ⟨?_, mine_own hm rfl rfl, trivial⟩, ?_⟩⟩
    · exact logged_record hfree .stop
    · exact fun j hne f' hj => mine_record hne hj
  | stopUnlock => exact ⟨rfl, rfl, fun s ⟨hfree, hm, _⟩ => ⟨hfree, hm⟩⟩
  | stopNotify =>
    refine ⟨rfl, fun s => ⟨fun hh => absurd hh (by simp [outline, Pc.holds]), fun _ hm => ?_⟩⟩
    simpa [outline, Mine, Pc.effected] using hm
  | resetLock => exact ⟨rfl, rfl, fun s hfree hm => ⟨hfree, hm, trivial⟩⟩
  | resetClear =>
    refine ⟨rfl, fun s ⟨hfree, hm, _⟩ => ⟨rfl, ⟨?_, mine_own hm rfl rfl, trivial⟩, ?_⟩⟩
    · exact logged_record hfree .reset
    · exact fun j hne f' hj => mine_record hne hj
  | resetUnlock =>
    refine ⟨rfl, rfl, fun s ⟨hfree, hm, _⟩ => ⟨hfree, ?_⟩⟩
    simpa [outline, Mine, Pc.effected] using hm
  | undefined => exact ⟨rfl, fun s h => absurd h.2.2 id⟩

theorem reachable_outline {s : Threads ι α} (h : Reachable (Step code) (newQueue ι α) s) :
    outline.Sound code s := by
  refine Outline.reachable_sound verified ?_ ?_ h
  · exact History.new
  · exact fun i => ⟨rfl, rfl⟩

/-- The order of the sections only grows. -/
theorem step_history {s s' : Threads ι α} (h : Step code s s') :
    s.shared.history <+: s'.shared.history := by
  cases h with
  | quiet hq =>
    cases hq with
    | @act i f g σ' k _ hc _ =>
      obtain ⟨pc, log⟩ := f
      cases pc <;> simp [code] at hc
    | @access i f g hi hc =>
      obtain ⟨pc, log⟩ := f
      simp only [State.goto]
      cases pc <;> simp only [code, Instr.access.injEq, reduceCtorEq] at hc
      all_goals subst hc
      case popTest => by_cases he : s.shared.queue = [] <;> simp [he, Shared.record]
      case popFront => cases hq : s.shared.queue <;> simp [hq]
      case popRemove item => cases hq : s.shared.queue <;> simp [hq, Shared.record]
      all_goals simp [Shared.record]
    | _ => exact List.prefix_rfl
  | call _ _ _ => exact List.prefix_rfl
  | spurious _ => exact List.prefix_rfl

variable {s s' : Threads ι α}

theorem sound_logged (h : outline.Sound code s) : Logged s.shared := by
  cases hh : s.holder with
  | none => exact h.free hh
  | some i =>
    have hst := h.stands i
    generalize s.thread i = t at hst
    cases hst with
    | inside _ _ hheld => exact hheld.1
    | outside hno _ _ => exact absurd hh hno
    | parked hno _ _ _ => exact absurd hh hno

theorem sound_mine (h : outline.Sound code s) (i : ι) : Mine i (s.thread i).place s.shared := by
  have hst := h.stands i
  generalize s.thread i = t at hst
  cases hst with
  | inside _ _ hheld => exact hheld.2.1
  | outside _ _ haway => exact haway
  | parked _ _ _ haway => exact haway

theorem sound_defined (h : outline.Sound code s) (i : ι) : (s.thread i).place.pc ≠ .undefined := by
  intro hpc
  have hst := h.stands i
  generalize s.thread i = t at hst hpc
  cases hst with
  | inside _ _ hheld =>
    have hknows := hheld.2.2
    simp only at hpc
    rw [hpc] at hknows
    exact hknows
  | outside _ hholds _ =>
    simp only at hpc
    simp [outline, hpc, Pc.holds] at hholds
  | parked _ _ hw _ =>
    simp only at hpc
    simp [code, hpc] at hw

/-- One thread sleeps in `pop`; another has pushed and not yet notified it. -/
def sleeperAndPusher : Threads Bool ℕ where
  shared := ⟨[7], false, [(true, .push 7)]⟩
  holder := none
  thread i := cond i ⟨⟨.pushNotify 7, []⟩, .running⟩ ⟨⟨.popWait, []⟩, .asleep ()⟩

theorem sleeperAndPusher_reachable : Reachable (Step code) (newQueue Bool ℕ) sleeperAndPusher := by
  have h₀ : Reachable (Step code) (newQueue Bool ℕ) (newQueue Bool ℕ) := .initial
  have h₁ := h₀.next trivial (.call (i := false) (k := ⟨.popLock, []⟩) rfl rfl (by exact ⟨trivial, rfl⟩))
  have h₂ := h₁.next trivial (.quiet (.lock (i := false) rfl rfl rfl))
  have h₃ := h₂.next trivial (.quiet (.park (i := false) rfl rfl rfl))
  have h₄ := h₃.next trivial (.call (i := true) (k := ⟨.pushLock 7, []⟩) rfl rfl (by exact ⟨trivial, rfl⟩))
  have h₅ := h₄.next trivial (.quiet (.lock (i := true) rfl rfl rfl))
  have h₆ := h₅.next trivial (.quiet (.access (i := true) rfl rfl))
  have h₇ := h₆.next trivial (.quiet (.unlock (i := true) rfl rfl))
  convert h₇ using 1
  refine congrArg (State.mk _ _) ?_
  funext i
  cases i <;> rfl

/-- The queue is linearizable. The sections of its calls make, in their order, a run of the queue
that the engine's model steps on; the order holds every call that returned to a thread, with what
it returned, once, and in the order it was made; it only grows, so that a call stands in it after
every call that had returned before. Nothing undefined is done. -/
theorem queue_linearizable (s s' : Threads ι α) (h : Reachable (Step code) (newQueue ι α) s)
    (h' : Reachable (Step code) s s') :
    History s.shared.history ⟨s.shared.queue, s.shared.stopping⟩ ∧
      s.shared.history.filterMap (fun e => e.2.pushed?) =
        s.shared.history.filterMap (fun e => e.2.popped?) ++ s.shared.queue ∧
      (∀ i, callsOf i s.shared.history =
        (s.thread i).place.log ++ (s.thread i).place.pc.effected) ∧
      (∀ i, (s.thread i).place.pc ≠ .undefined) ∧
      s.shared.history <+: s'.shared.history := by
  have hsound := reachable_outline h
  refine ⟨sound_logged hsound, (sound_logged hsound).account, sound_mine hsound,
    sound_defined hsound, ?_⟩
  exact h'.invariant (I := fun s' => s.shared.history <+: s'.shared.history) List.prefix_rfl
    fun _ _ hpre _ hstep => hpre.trans (step_history hstep)

theorem queue_linearizable_pusher :
    History [(true, .push 7)] (⟨[7], false⟩ : ThreadSafeQueue ℕ) :=
  (queue_linearizable sleeperAndPusher sleeperAndPusher sleeperAndPusher_reachable .initial).1

/-! ## Sleeping and waking -/

def Pc.owes : Pc α → ℕ∞
  | .pushUnlock _ | .pushNotify _ | .popWait | .popTest | .popFront | .popRemove _ => 1
  | .stopUnlock | .stopNotify => ⊤
  | _ => 0

/-- One pop for each item, and every pop once the queue is stopping. -/
def signals : Signals (Frame α) (Shared ι α) where
  due _ s := s.queue ≠ [] ∨ s.stopping = true
  cap s := if s.stopping then ⊤ else s.queue.length
  owes f := f.pc.owes

theorem kept (i : ι) (f : Frame α) :
    signals.Kept outline code () i f (code i f : Instr (Frame α) (Shared ι α) Unit) := by
  obtain ⟨pc, log⟩ := f
  cases pc with
  | idle => exact fun k _ => bot_le
  | pushItem item =>
    refine ⟨ENat.zero_ne_top, fun s _ => ⟨?_, fun m _ => ?_⟩⟩
    · cases hs : s.stopping <;> simp [signals, Pc.owes, Shared.record, hs]
    · cases hs : s.stopping
      · by_cases hq : s.queue = []
        · exact .inr (by simp [signals, Pc.owes, Shared.record, hs, hq])
        · exact .inl (.inl hq)
      · exact .inl (.inr hs)
  | popWait =>
    refine ⟨le_rfl, fun s _ hp => ⟨fun _ hdue => ?_, .inr ?_⟩⟩
    · simp only [Bool.or_eq_false_iff, Bool.not_eq_false', List.isEmpty_iff] at hp
      exact hdue.elim (absurd hp.1) (by simp [hp.2])
    · simp only [Bool.or_eq_false_iff, Bool.not_eq_false', List.isEmpty_iff] at hp
      simp [signals, hp]
  | popTest =>
    refine ⟨by simp [signals, Pc.owes], fun s ⟨_, _, hknows⟩ => ?_⟩
    obtain ⟨_ | ⟨item, rest⟩, stopping, history⟩ := s
    · obtain rfl : stopping = true := hknows.resolve_left (by simp)
      exact ⟨by simp [signals, Shared.record], fun m hd => .inl hd⟩
    · exact ⟨le_rfl, fun m hd => .inl hd⟩
  | popFront =>
    refine ⟨by simp [signals, Pc.owes], fun s ⟨_, _, hknows⟩ => ?_⟩
    obtain ⟨_ | ⟨item, rest⟩, stopping, history⟩ := s
    · exact absurd rfl hknows
    · exact ⟨le_rfl, fun m hd => .inl hd⟩
  | popRemove item =>
    refine ⟨by simp [signals, Pc.owes], fun s ⟨_, _, hknows⟩ => ?_⟩
    obtain ⟨_ | ⟨item', rest⟩, stopping, history⟩ := s
    · simp [Pc.knows] at hknows
    · refine ⟨?_, fun m _ => .inl (.inl (List.cons_ne_nil _ _))⟩
      cases stopping <;> simp [signals, Pc.owes, Shared.record]
  | stopSet =>
    refine ⟨ENat.zero_ne_top, fun s _ => ⟨?_, fun m _ => .inr ?_⟩⟩
    · simp [signals, Pc.owes]
    · simp [signals, Pc.owes]
  | resetClear =>
    refine ⟨ENat.zero_ne_top, fun s _ => ⟨?_, fun m hd => .inl ?_⟩⟩
    · cases hs : s.stopping <;> simp [signals, Pc.owes, Shared.record, hs]
    · exact .inl (hd.resolve_right (by simp [Shared.record]))
  | undefined => exact ⟨ENat.zero_ne_top, fun s h => absurd h.2.2 id⟩
  | pushNotify item =>
    refine ⟨fun _ j w p k hw => ?_, fun hc => absurd rfl hc⟩
    obtain ⟨pc, log'⟩ := w
    cases pc <;> simp_all [code, signals, Pc.owes]
  | stopNotify => exact fun hc => absurd rfl hc
  | pushLock item => exact bot_le
  | pushUnlock item => exact le_rfl
  | popLock => exact bot_le
  | popUnlock r => exact bot_le
  | stopLock => exact bot_le
  | stopUnlock => exact le_rfl
  | resetLock => exact bot_le
  | resetUnlock => exact bot_le

/-- Statements to the return of the call, and seven more for a thread that is woken. -/
def Pc.rank (threads : ℕ) : Pc α → ℕ
  | .idle => 0
  | .pushLock _ => 11
  | .pushItem _ => 10
  | .pushUnlock _ => 9
  | .pushNotify _ => 8
  | .popLock => 7
  | .popWait => 6
  | .popTest => 5
  | .popFront => 4
  | .popRemove _ => 3
  | .popUnlock _ => 1
  | .stopLock => 7 * threads + 4
  | .stopSet => 7 * threads + 3
  | .stopUnlock => 7 * threads + 2
  | .stopNotify => 7 * threads + 1
  | .resetLock => 3
  | .resetClear => 2
  | .resetUnlock => 1
  | .undefined => 0

def ranking [Fintype ι] : Ranking (Frame α) (Shared ι α) where
  rank f := f.pc.rank (Fintype.card ι)
  work _ := 0

omit [DecidableEq ι] in
/-- Who waits is at `popWait`. -/
theorem wait_place {i : ι} {f k : Frame α} {c : Unit} {p : Shared ι α → Bool}
    (h : code i f = .wait c p k) : f.pc = .popWait := by
  obtain ⟨pc, log⟩ := f
  cases pc <;> simp [code] at h ⊢

variable [Fintype ι]

theorem descends (i : ι) (f : Frame α) :
    ranking.Descends outline code i f (code i f : Instr (Frame α) (Shared ι α) Unit) := by
  obtain ⟨pc, log⟩ := f
  cases pc with
  | idle => trivial
  | pushNotify item =>
    refine ⟨by simp [ranking, Pc.rank], fun j w p k hw => ?_⟩
    simp [ranking, wait_place hw, Pc.rank]
  | stopNotify =>
    refine ⟨7, fun j w p k hw => ?_, ?_⟩
    · simp [ranking, wait_place hw, Pc.rank]
    · simp only [ranking, Pc.rank]
      omega
  | popTest =>
    rintro ⟨_ | ⟨item, rest⟩, stopping, history⟩ _ <;> simp [ranking, Pc.rank]
  | popFront =>
    rintro ⟨_ | ⟨item, rest⟩, stopping, history⟩ ⟨_, _, hknows⟩
    · exact absurd rfl hknows
    · simp [ranking, Pc.rank]
  | popRemove item =>
    rintro ⟨_ | ⟨item', rest⟩, stopping, history⟩ ⟨_, _, hknows⟩
    · simp [Pc.knows] at hknows
    · simp [ranking, Pc.rank]
  | undefined => exact fun s h => absurd h.2.2 id
  | pushItem item => exact fun s _ => by simp [ranking, Pc.rank]
  | stopSet => exact fun s _ => by simp [ranking, Pc.rank]
  | resetClear => exact fun s _ => by simp [ranking, Pc.rank]
  | pushLock item => exact Nat.lt_succ_self 10
  | pushUnlock item => exact Nat.lt_succ_self 8
  | popLock => exact Nat.lt_succ_self 6
  | popWait => exact Nat.lt_succ_self 5
  | popUnlock r => exact Nat.lt_succ_self 0
  | stopLock => exact Nat.lt_succ_self _
  | stopUnlock => exact Nat.lt_succ_self _
  | resetLock => exact Nat.lt_succ_self 2
  | resetUnlock => exact Nat.lt_succ_self 0

omit [DecidableEq ι] [Fintype ι] in
theorem still_place {shared : Shared ι α} {i : ι} {t : Thread (Frame α) Unit}
    (h : Still code shared i t) :
    t = ⟨⟨.idle, t.place.log⟩, .running⟩ ∨ t = ⟨⟨.popWait, t.place.log⟩, .asleep ()⟩ := by
  cases h with
  | @idle f calls hc =>
    obtain ⟨pc, log⟩ := f
    cases pc <;> simp [code] at hc ⊢
  | @disabled f g hc _ =>
    obtain ⟨pc, log⟩ := f
    cases pc <;> simp [code] at hc
  | @asleep f k cv p hw =>
    obtain ⟨pc, log⟩ := f
    obtain rfl : pc = .popWait := wait_place hw
    exact .inr rfl

/-- No wakeup is lost and no call spins. Once no thread begins a call and nobody wakes without
being notified, every schedule comes to an end, and where it does each thread has returned from
its call or sleeps in a `pop` of an empty queue that is not stopping. -/
theorem queue_settles (s : Threads ι α) (h : Reachable (Step code) (newQueue ι α) s) :
    (∃ bound, ∀ (run : ℕ → Threads ι α) (n : ℕ), run 0 = s →
      (∀ k < n, Quiet code (run k) (run (k + 1))) → n ≤ bound) ∧
      ∀ s', Reachable (Quiet code) s s' → Stuck code s' → ∀ i,
        (s'.thread i = ⟨⟨.idle, (s'.thread i).place.log⟩, .running⟩) ∨
          (s'.thread i = ⟨⟨.popWait, (s'.thread i).place.log⟩, .asleep ()⟩ ∧
            s'.shared.queue = [] ∧ s'.shared.stopping = false) := by
  refine ⟨⟨ranking.total s, fun run n h₀ hrun => ?_⟩, fun s' hq hstuck i => ?_⟩
  · subst h₀
    exact Ranking.run_length_le verified descends (reachable_outline h) hrun
  · have h' : Reachable (Step code) (newQueue ι α) s' := h.trans (hq.map .quiet)
    have hsound := reachable_outline h'
    have hanswered : signals.Answered () s' := by
      refine Signals.reachable_answered verified kept ?_ ?_ h'
      · exact History.new
      · exact fun i => ⟨rfl, rfl⟩
    have howes : ∀ j, (signals : Signals (Frame α) (Shared ι α)).credit (s'.thread j) = 0 := by
      intro j
      rcases still_place (hstuck.still verified hsound j) with hj | hj
      · rw [hj]
        rfl
      · rw [hj]
        rfl
    rcases still_place (hstuck.still verified hsound i) with hi | hi
    · exact .inl hi
    · have hdue := hanswered.unowed (i := i) howes ?_ (by rw [hi])
      · simp only [signals, not_or, not_not, Bool.not_eq_true] at hdue
        exact .inr ⟨hi, hdue⟩
      · intro f shared hcap hd
        simp only [signals] at hcap hd
        cases hs : shared.stopping
        · have hq : shared.queue ≠ [] := hd.resolve_right (by simp [hs])
          simp [hs, hq] at hcap
        · simp [hs] at hcap

theorem queue_settles_pusher :
    ∃ bound, ∀ (run : ℕ → Threads Bool ℕ) (n : ℕ), run 0 = sleeperAndPusher →
      (∀ k < n, Quiet code (run k) (run (k + 1))) → n ≤ bound :=
  (queue_settles sleeperAndPusher sleeperAndPusher_reachable).1

end QueueMonitor
