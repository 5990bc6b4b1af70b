import Mathlib.Data.Finset.Basic
import Mathlib.Logic.Function.Basic
import MatchingEngine.Transitions

/-! # Threads that share a mutex and its condition variables

A thread's program is a flow chart. A place in it carries the thread's local data. What the
mutex guards is touched between `lock` and `unlock` only; a wait gives the mutex up and takes it
back before its predicate is read again. -/
namespace Monitor

open Transitions

/-- A statement, with the place where the thread goes on. `act` is one action outside the
mutex, on what the mutex does not guard. -/
inductive Instr (L σ C : Type*) where
  | idle (calls : L → Prop)
  | act (f : σ → σ → L → Prop)
  | lock (k : L)
  | unlock (k : L)
  | access (f : σ → σ × L)
  | wait (cv : C) (p : σ → Bool) (k : L)
  | notifyOne (cv : C) (k : L)
  | notifyAll (cv : C) (k : L)

/-- A thread that was woken has to take the mutex again before it runs on. -/
inductive Mode (C : Type*) where
  | running
  | asleep (cv : C)
  | woken
  deriving DecidableEq

structure Thread (L C : Type*) where
  place : L
  mode : Mode C

structure State (ι L σ C : Type*) where
  shared : σ
  holder : Option ι
  thread : ι → Thread L C

variable {ι L σ C : Type*} [DecidableEq ι]

def State.goto (s : State ι L σ C) (i : ι) (k : L) : State ι L σ C :=
  { s with thread := Function.update s.thread i ⟨k, .running⟩ }

def State.setMode (s : State ι L σ C) (i : ι) (m : Mode C) : State ι L σ C :=
  { s with thread := Function.update s.thread i ⟨(s.thread i).place, m⟩ }

def State.wakeAll [DecidableEq C] (s : State ι L σ C) (cv : C) : State ι L σ C :=
  { s with
    thread := fun i => if (s.thread i).mode = .asleep cv then ⟨(s.thread i).place, .woken⟩
      else s.thread i }

@[simp] theorem goto_self (s : State ι L σ C) (i : ι) (k : L) :
    (s.goto i k).thread i = ⟨k, .running⟩ := by
  simp [State.goto]

theorem goto_other (s : State ι L σ C) {i j : ι} (h : j ≠ i) (k : L) :
    (s.goto i k).thread j = s.thread j := by
  simp [State.goto, h]

@[simp] theorem setMode_self (s : State ι L σ C) (i : ι) (m : Mode C) :
    (s.setMode i m).thread i = ⟨(s.thread i).place, m⟩ := by
  simp [State.setMode]

theorem setMode_other (s : State ι L σ C) {i j : ι} (h : j ≠ i) (m : Mode C) :
    (s.setMode i m).thread j = s.thread j := by
  simp [State.setMode, h]

omit [DecidableEq ι] in
theorem wakeAll_awake [DecidableEq C] (s : State ι L σ C) (cv : C) (j : ι) :
    ((s.wakeAll cv).thread j).mode ≠ .asleep cv := by
  intro hj
  simp only [State.wakeAll] at hj
  split at hj
  · simp at hj
  · contradiction

/-- A step that is neither a new call nor a spurious wakeup. -/
inductive Quiet [DecidableEq C] (code : ι → L → Instr L σ C) : State ι L σ C → State ι L σ C → Prop
  | act {s : State ι L σ C} {i : ι} {ℓ : L} {f : σ → σ → L → Prop} {σ' : σ} {k : L} :
      s.thread i = ⟨ℓ, .running⟩ → code i ℓ = .act f → f s.shared σ' k →
      Quiet code s ({ s with shared := σ' }.goto i k)
  | lock {s : State ι L σ C} {i : ι} {ℓ k : L} :
      s.thread i = ⟨ℓ, .running⟩ → code i ℓ = .lock k → s.holder = none →
      Quiet code s ({ s with holder := some i }.goto i k)
  | unlock {s : State ι L σ C} {i : ι} {ℓ k : L} :
      s.thread i = ⟨ℓ, .running⟩ → code i ℓ = .unlock k →
      Quiet code s ({ s with holder := none }.goto i k)
  | access {s : State ι L σ C} {i : ι} {ℓ : L} {f : σ → σ × L} :
      s.thread i = ⟨ℓ, .running⟩ → code i ℓ = .access f →
      Quiet code s ({ s with shared := (f s.shared).1 }.goto i (f s.shared).2)
  | pass {s : State ι L σ C} {i : ι} {ℓ : L} {cv : C} {p : σ → Bool} {k : L} :
      s.thread i = ⟨ℓ, .running⟩ → code i ℓ = .wait cv p k → p s.shared = true →
      Quiet code s (s.goto i k)
  | park {s : State ι L σ C} {i : ι} {ℓ : L} {cv : C} {p : σ → Bool} {k : L} :
      s.thread i = ⟨ℓ, .running⟩ → code i ℓ = .wait cv p k → p s.shared = false →
      Quiet code s ({ s with holder := none }.setMode i (.asleep cv))
  | retake {s : State ι L σ C} {i : ι} :
      (s.thread i).mode = .woken → s.holder = none →
      Quiet code s ({ s with holder := some i }.setMode i .running)
  | wakeOne {s : State ι L σ C} {i u : ι} {ℓ : L} {cv : C} {k : L} :
      s.thread i = ⟨ℓ, .running⟩ → code i ℓ = .notifyOne cv k → (s.thread u).mode = .asleep cv →
      Quiet code s ((s.setMode u .woken).goto i k)
  | wakeNone {s : State ι L σ C} {i : ι} {ℓ : L} {cv : C} {k : L} :
      s.thread i = ⟨ℓ, .running⟩ → code i ℓ = .notifyOne cv k →
      (∀ u, (s.thread u).mode ≠ .asleep cv) → Quiet code s (s.goto i k)
  | wakeAll {s : State ι L σ C} {i : ι} {ℓ : L} {cv : C} {k : L} :
      s.thread i = ⟨ℓ, .running⟩ → code i ℓ = .notifyAll cv k →
      Quiet code s ((s.wakeAll cv).goto i k)

inductive Step [DecidableEq C] (code : ι → L → Instr L σ C) : State ι L σ C → State ι L σ C → Prop
  | quiet {s s' : State ι L σ C} : Quiet code s s' → Step code s s'
  | call {s : State ι L σ C} {i : ι} {ℓ : L} {calls : L → Prop} {k : L} :
      s.thread i = ⟨ℓ, .running⟩ → code i ℓ = .idle calls → calls k → Step code s (s.goto i k)
  | spurious {s : State ι L σ C} {u : ι} {cv : C} :
      (s.thread u).mode = .asleep cv → Step code s (s.setMode u .woken)

/-- Everybody runs outside the mutex. -/
def start (shared : σ) (pc : ι → L) : State ι L σ C := ⟨shared, none, fun i => ⟨pc i, .running⟩⟩

/-! ## Proof outlines -/

/-- `free` is said of the shared state while nobody has the mutex, `held i ℓ` while thread `i`
has it at `ℓ`, `away i ℓ` while `i` is at `ℓ` without it. -/
structure Outline (ι L σ : Type*) where
  holds : L → Bool
  free : σ → Prop
  held : ι → L → σ → Prop
  away : ι → L → σ → Prop

namespace Outline

/-- What thread `i` does to the shared state without the mutex spoils no assertion of others. -/
def Unnoticed (O : Outline ι L σ) (i : ι) (s s' : σ) : Prop :=
  (O.free s → O.free s') ∧
    ∀ j ≠ i, ∀ ℓ, (O.held j ℓ s → O.held j ℓ s') ∧ (O.away j ℓ s → O.away j ℓ s')

/-- What has to be shown of one statement. -/
def Verified (O : Outline ι L σ) (i : ι) (ℓ : L) : Instr L σ C → Prop
  | .idle calls =>
    O.holds ℓ = false ∧
      ∀ k s, calls k → O.away i ℓ s → O.holds k = false ∧ O.away i k s
  | .act f =>
    O.holds ℓ = false ∧
      ∀ s s' k, f s s' k → O.away i ℓ s →
        O.holds k = false ∧ O.away i k s' ∧ O.Unnoticed i s s'
  | .lock k =>
    O.holds ℓ = false ∧ O.holds k = true ∧ ∀ s, O.free s → O.away i ℓ s → O.held i k s
  | .unlock k =>
    O.holds ℓ = true ∧ O.holds k = false ∧ ∀ s, O.held i ℓ s → O.free s ∧ O.away i k s
  | .access f =>
    O.holds ℓ = true ∧
      ∀ s, O.held i ℓ s →
        O.holds (f s).2 = true ∧ O.held i (f s).2 (f s).1 ∧
          ∀ j ≠ i, ∀ m, O.away j m s → O.away j m (f s).1
  | .wait _ p k =>
    O.holds ℓ = true ∧ O.holds k = true ∧
      (∀ s, O.free s → O.away i ℓ s → O.held i ℓ s) ∧
      ∀ s, O.held i ℓ s →
        (p s = true → O.held i k s) ∧ (p s = false → O.free s ∧ O.away i ℓ s)
  | .notifyOne _ k | .notifyAll _ k =>
    O.holds k = O.holds ℓ ∧
      ∀ s, (O.holds ℓ = true → O.held i ℓ s → O.held i k s) ∧
        (O.holds ℓ = false → O.away i ℓ s → O.away i k s)

/-- Where a thread may stand; `has` tells whether it has the mutex. -/
inductive Stands (O : Outline ι L σ) (code : ι → L → Instr L σ C) (i : ι) (shared : σ) :
    Prop → Thread L C → Prop
  | inside {has : Prop} {ℓ : L} : has → O.holds ℓ = true → O.held i ℓ shared →
      Stands O code i shared has ⟨ℓ, .running⟩
  | outside {has : Prop} {ℓ : L} : ¬ has → O.holds ℓ = false → O.away i ℓ shared →
      Stands O code i shared has ⟨ℓ, .running⟩
  | parked {has : Prop} {ℓ k : L} {m : Mode C} {cv : C} {p : σ → Bool} : ¬ has →
      m = .asleep cv ∨ m = .woken → code i ℓ = .wait cv p k → O.away i ℓ shared → Stands O code i shared has ⟨ℓ, m⟩

structure Sound (O : Outline ι L σ) (code : ι → L → Instr L σ C) (s : State ι L σ C) : Prop where
  stands : ∀ i, O.Stands code i s.shared (s.holder = some i) (s.thread i)
  free : s.holder = none → O.free s.shared

omit [DecidableEq ι]

variable {O : Outline ι L σ} {code : ι → L → Instr L σ C} {s s' : State ι L σ C} {i : ι} {ℓ : L}

theorem Sound.held (h : O.Sound code s) (hi : s.thread i = ⟨ℓ, .running⟩)
    (hℓ : O.holds ℓ = true) : s.holder = some i ∧ O.held i ℓ s.shared := by
  have hs := h.stands i
  rw [hi] at hs
  cases hs with
  | inside has _ hheld => exact ⟨has, hheld⟩
  | outside _ hfalse _ => simp [hfalse] at hℓ
  | parked _ hm _ _ => simp at hm

theorem Sound.away (h : O.Sound code s) (hi : s.thread i = ⟨ℓ, .running⟩)
    (hℓ : O.holds ℓ = false) : s.holder ≠ some i ∧ O.away i ℓ s.shared := by
  have hs := h.stands i
  rw [hi] at hs
  cases hs with
  | inside _ htrue _ => simp [htrue] at hℓ
  | outside has _ haway => exact ⟨has, haway⟩
  | parked _ hm _ _ => simp at hm

theorem Sound.parked (h : O.Sound code s) (hi : (s.thread i).mode ≠ .running) :
    s.holder ≠ some i ∧ O.away i (s.thread i).place s.shared ∧
      ∃ cv p k, code i (s.thread i).place = .wait cv p k ∧
        ((s.thread i).mode = .asleep cv ∨ (s.thread i).mode = .woken) := by
  have hs := h.stands i
  generalize s.thread i = t at hs hi
  cases hs with
  | inside _ _ _ => exact absurd rfl hi
  | outside _ _ _ => exact absurd rfl hi
  | parked has hm hw haway => exact ⟨has, haway, _, _, _, hw, hm⟩

/-- At most one thread is between `lock` and `unlock`. -/
theorem Sound.exclusive (h : O.Sound code s) {j : ι} {m : L} (hi : s.thread i = ⟨ℓ, .running⟩)
    (hj : s.thread j = ⟨m, .running⟩) (hℓ : O.holds ℓ = true) (hm : O.holds m = true) : i = j := by
  have h₁ := (h.held hi hℓ).1
  have h₂ := (h.held hj hm).1
  exact Option.some.inj (h₁.symm.trans h₂)

theorem Stands.congr {shared : σ} {has has' : Prop} {t : Thread L C} (hiff : has ↔ has')
    (h : O.Stands code i shared has t) : O.Stands code i shared has' t :=
  propext hiff ▸ h

/-- What the action of another thread leaves alone. -/
theorem Stands.unnoticed {shared shared' : σ} {has : Prop} {t : Thread L C} {j : ι}
    (hu : O.Unnoticed j shared shared') (hne : i ≠ j) (h : O.Stands code i shared has t) :
    O.Stands code i shared' has t := by
  cases h with
  | inside hh hl hheld => exact .inside hh hl ((hu.2 i hne _).1 hheld)
  | outside hh hl haway => exact .outside hh hl ((hu.2 i hne _).2 haway)
  | parked hh hm hw haway => exact .parked hh hm hw ((hu.2 i hne _).2 haway)

/-- A thread without the mutex keeps its place while its assertion is kept. -/
theorem Stands.away {shared shared' : σ} {has has' : Prop} {t : Thread L C} (hno : ¬ has)
    (hno' : ¬ has') (haway : ∀ ℓ, O.away i ℓ shared → O.away i ℓ shared')
    (h : O.Stands code i shared has t) : O.Stands code i shared' has' t := by
  cases h with
  | inside hh _ _ => exact absurd hh hno
  | outside _ hl ha => exact .outside hno' hl (haway _ ha)
  | parked _ hm hw ha => exact .parked hno' hm hw (haway _ ha)

/-- The assertions do not depend on statements other than the waits. -/
theorem Sound.recode {code' : ι → L → Instr L σ C}
    (hw : ∀ j m cv p k, code j m = .wait cv p k → code' j m = .wait cv p k)
    (h : O.Sound code s) : O.Sound code' s where
  stands j := by
    have hst := h.stands j
    generalize s.thread j = t at hst ⊢
    cases hst with
    | inside hh hl hheld => exact .inside hh hl hheld
    | outside hh hl haway => exact .outside hh hl haway
    | parked hh hm hwait haway => exact .parked hh hm (hw _ _ _ _ _ hwait) haway
  free := h.free

theorem Sound.wakeAll [DecidableEq C] (h : O.Sound code s) (cv : C) :
    O.Sound code (s.wakeAll cv) where
  stands j := by
    simp only [State.wakeAll]
    split
    case isTrue hasleep =>
      obtain ⟨hno, ha, c, p, k, hw, _⟩ := h.parked (i := j) (by simp [hasleep])
      exact .parked hno (.inr rfl) hw ha
    case isFalse => exact h.stands j
  free := h.free

variable [DecidableEq ι]

/-- One thread moves; the others are where they were. -/
theorem Sound.put (h : O.Sound code s) {t : Thread L C} {shared : σ} {holder : Option ι}
    (hi : O.Stands code i shared (holder = some i) t)
    (hj : ∀ j ≠ i, O.Stands code j s.shared (s.holder = some j) (s.thread j) →
      O.Stands code j shared (holder = some j) (s.thread j))
    (hfree : holder = none → O.free shared) :
    O.Sound code ⟨shared, holder, Function.update s.thread i t⟩ where
  stands j := by
    by_cases hne : j = i
    · subst hne
      simpa using hi
    · simpa [hne] using hj j hne (h.stands j)
  free := hfree

theorem Sound.goto_away (h : O.Sound code s) {k : L} (hno : s.holder ≠ some i)
    (hk : O.holds k = false) (ha : O.away i k s.shared) : O.Sound code (s.goto i k) :=
  h.put (.outside hno hk ha) (fun _ _ hs => hs) h.free

theorem Sound.goto_held (h : O.Sound code s) {k : L} (hi : s.holder = some i)
    (hk : O.holds k = true) (hheld : O.held i k s.shared) : O.Sound code (s.goto i k) :=
  h.put (.inside hi hk hheld) (fun _ _ hs => hs) h.free

theorem Sound.wake (h : O.Sound code s) {u : ι} (hu : (s.thread u).mode ≠ .running) :
    O.Sound code (s.setMode u .woken) := by
  obtain ⟨hno, ha, cv, p, k, hw, _⟩ := h.parked hu
  exact h.put (.parked hno (.inr rfl) hw ha) (fun _ _ hs => hs) h.free

/-- A notification, with whatever waking it did already made. -/
theorem Sound.notified (h : O.Sound code s) {k : L} (hi : s.thread i = ⟨ℓ, .running⟩)
    (hholds : O.holds k = O.holds ℓ)
    (hk : ∀ shared, (O.holds ℓ = true → O.held i ℓ shared → O.held i k shared) ∧
      (O.holds ℓ = false → O.away i ℓ shared → O.away i k shared)) :
    O.Sound code (s.goto i k) := by
  cases hℓ : O.holds ℓ with
  | true =>
    obtain ⟨hhas, hheld⟩ := h.held hi hℓ
    exact h.goto_held hhas (hholds.trans hℓ) ((hk _).1 hℓ hheld)
  | false =>
    obtain ⟨hno, ha⟩ := h.away hi hℓ
    exact h.goto_away hno (hholds.trans hℓ) ((hk _).2 hℓ ha)

variable [DecidableEq C]

theorem Sound.quiet (hv : ∀ i ℓ, O.Verified i ℓ (code i ℓ)) (h : O.Sound code s)
    (hs : Quiet code s s') : O.Sound code s' := by
  cases hs with
  | @act i ℓ f σ' k hi hc hf =>
    have hver := hv i ℓ
    rw [hc] at hver
    obtain ⟨hno, ha⟩ := h.away hi hver.1
    obtain ⟨hk, hak, hu⟩ := hver.2 _ _ _ hf ha
    exact h.put (.outside hno hk hak) (fun j hne hj => hj.unnoticed hu hne)
      (fun hnone => hu.1 (h.free hnone))
  | @lock i ℓ k hi hc hnone =>
    have hver := hv i ℓ
    rw [hc] at hver
    obtain ⟨_, ha⟩ := h.away hi hver.1
    refine h.put (.inside rfl hver.2.1 (hver.2.2 _ (h.free hnone) ha)) (fun j hne hj => ?_)
      (by simp)
    exact hj.congr (by simpa [hnone] using fun e => hne e.symm)
  | @unlock i ℓ k hi hc =>
    have hver := hv i ℓ
    rw [hc] at hver
    obtain ⟨hhas, hheld⟩ := h.held hi hver.1
    obtain ⟨hfree, ha⟩ := hver.2.2 _ hheld
    refine h.put (.outside (by simp) hver.2.1 ha) (fun j hne hj => ?_) (fun _ => hfree)
    exact hj.congr (by simpa [hhas] using fun e => hne e.symm)
  | @access i ℓ f hi hc =>
    have hver := hv i ℓ
    rw [hc] at hver
    obtain ⟨hhas, hheld⟩ := h.held hi hver.1
    obtain ⟨hk, hk', hstable⟩ := hver.2 _ hheld
    refine h.put (.inside hhas hk hk') (fun j hne hj => ?_) (by simp [hhas])
    have hno : s.holder ≠ some j := by simpa [hhas] using fun e => hne e.symm
    exact hj.away hno hno (hstable j hne)
  | @pass i ℓ cv p k hi hc hp =>
    have hver := hv i ℓ
    rw [hc] at hver
    obtain ⟨hhas, hheld⟩ := h.held hi hver.1
    exact h.goto_held hhas hver.2.1 ((hver.2.2.2 _ hheld).1 hp)
  | @park i ℓ cv p k hi hc hp =>
    have hver := hv i ℓ
    rw [hc] at hver
    obtain ⟨hhas, hheld⟩ := h.held hi hver.1
    obtain ⟨hfree, ha⟩ := (hver.2.2.2 _ hheld).2 hp
    refine h.put (.parked (by simp) (.inl rfl) (by simpa [hi] using hc) (by simpa [hi] using ha))
      (fun j hne hj => ?_) (fun _ => hfree)
    exact hj.congr (by simpa [hhas] using fun e => hne e.symm)
  | @retake i hm hnone =>
    obtain ⟨_, ha, cv, p, k, hw, _⟩ := h.parked (i := i) (by simp [hm])
    have hver := hv i (s.thread i).place
    rw [hw] at hver
    refine h.put (.inside rfl hver.1 (hver.2.2.1 _ (h.free hnone) ha)) (fun j hne hj => ?_)
      (by simp)
    exact hj.congr (by simpa [hnone] using fun e => hne e.symm)
  | @wakeOne i u ℓ cv k hi hc hu =>
    have hver := hv i ℓ
    rw [hc] at hver
    have hne : i ≠ u := by
      rintro rfl
      simp [hi] at hu
    exact (h.wake (by simp [hu])).notified ((setMode_other s hne _).trans hi) hver.1 hver.2
  | @wakeNone i ℓ cv k hi hc hnobody =>
    have hver := hv i ℓ
    rw [hc] at hver
    exact h.notified hi hver.1 hver.2
  | @wakeAll i ℓ cv k hi hc =>
    have hver := hv i ℓ
    rw [hc] at hver
    exact (h.wakeAll cv).notified (by simp [State.wakeAll, hi]) hver.1 hver.2

theorem Sound.step (hv : ∀ i ℓ, O.Verified i ℓ (code i ℓ)) (h : O.Sound code s)
    (hs : Step code s s') : O.Sound code s' := by
  cases hs with
  | quiet hq => exact h.quiet hv hq
  | @call i ℓ calls k hi hc hk =>
    have hver := hv i ℓ
    rw [hc] at hver
    obtain ⟨hno, ha⟩ := h.away hi hver.1
    obtain ⟨hkf, hka⟩ := hver.2 _ _ hk ha
    exact h.goto_away hno hkf hka
  | spurious hu => exact h.wake (by simp [hu])

/-- The rule of the monitor: statements verified one by one hold in every interleaving. -/
theorem reachable_sound (hv : ∀ i ℓ, O.Verified i ℓ (code i ℓ)) {shared : σ} {pc : ι → L}
    (hfree : O.free shared) (hpc : ∀ i, O.holds (pc i) = false ∧ O.away i (pc i) shared)
    (hr : Reachable (Step code) (start shared pc) s) : O.Sound code s := by
  refine hr.invariant ⟨fun i => ?_, fun _ => hfree⟩ fun _ _ h _ hs => h.step hv hs
  exact .outside (by simp [start]) (hpc i).1 (hpc i).2

end Outline

end Monitor
