import Mathlib
import MatchingEngine.Monitor

/-! # No wakeup is lost, and no thread runs for ever -/
namespace Monitor

open Outline

variable {ι L σ C : Type*} [DecidableEq ι] [DecidableEq C] {O : Outline ι L σ}
  {code : ι → L → Instr L σ C} {s s' : State ι L σ C} {i : ι} {ℓ : L}

/-! ## Where nothing moves -/

/-- Nothing but a new call or a spurious wakeup can happen. -/
def Stuck (code : ι → L → Instr L σ C) (s : State ι L σ C) : Prop := ∀ s', ¬ Quiet code s s'

/-- What a thread can be waiting for in a state where nothing moves: a call, its action, or a
notification. -/
inductive Still (code : ι → L → Instr L σ C) (shared : σ) (i : ι) : Thread L C → Prop
  | idle {ℓ : L} {calls : L → Prop} : code i ℓ = .idle calls → Still code shared i ⟨ℓ, .running⟩
  | disabled {ℓ : L} {f : σ → σ → L → Prop} : code i ℓ = .act f → (∀ s' k, ¬ f shared s' k) →
      Still code shared i ⟨ℓ, .running⟩
  | asleep {ℓ k : L} {cv : C} {p : σ → Bool} : code i ℓ = .wait cv p k →
      Still code shared i ⟨ℓ, .asleep cv⟩

theorem Stuck.running (hs : Stuck code s) (hi : s.thread i = ⟨ℓ, .running⟩) :
    (∃ calls, code i ℓ = .idle calls) ∨
      (∃ f, code i ℓ = .act f ∧ ∀ σ' k, ¬ f s.shared σ' k) ∨
      ∃ k, code i ℓ = .lock k ∧ s.holder ≠ none := by
  cases hc : code i ℓ with
  | idle calls => exact .inl ⟨calls, rfl⟩
  | act f => exact .inr (.inl ⟨f, rfl, fun σ' k hf => hs _ (.act hi hc hf)⟩)
  | lock k => exact .inr (.inr ⟨k, rfl, fun hnone => hs _ (.lock hi hc hnone)⟩)
  | unlock k => exact absurd (.unlock hi hc) (hs _)
  | access f => exact absurd (.access hi hc) (hs _)
  | wait cv p k =>
    cases hp : p s.shared with
    | true => exact absurd (.pass hi hc hp) (hs _)
    | false => exact absurd (.park hi hc hp) (hs _)
  | notifyOne cv k =>
    by_cases hu : ∃ u, (s.thread u).mode = .asleep cv
    · obtain ⟨u, hu⟩ := hu
      exact absurd (.wakeOne hi hc hu) (hs _)
    · exact absurd (.wakeNone hi hc fun u hu' => hu ⟨u, hu'⟩) (hs _)
  | notifyAll cv k => exact absurd (.wakeAll hi hc) (hs _)

/-- Nobody is left inside the mutex. -/
theorem Stuck.holder (hv : ∀ i ℓ, O.Verified i ℓ (code i ℓ)) (h : O.Sound code s)
    (hs : Stuck code s) : s.holder = none := by
  by_contra hsome
  obtain ⟨i, hi⟩ := Option.ne_none_iff_exists'.mp hsome
  have hst := h.stands i
  generalize ht : s.thread i = t at hst
  cases hst with
  | @inside ℓ _ hholds _ =>
    have hver := hv i ℓ
    rcases hs.running ht with ⟨calls, hc⟩ | ⟨f, hc, _⟩ | ⟨k, hc, _⟩
    all_goals
      rw [hc] at hver
      simp [hver.1] at hholds
  | outside hno _ _ => exact hno hi
  | parked hno _ _ _ => exact hno hi

theorem Stuck.still (hv : ∀ i ℓ, O.Verified i ℓ (code i ℓ)) (h : O.Sound code s)
    (hs : Stuck code s) (i : ι) : Still code s.shared i (s.thread i) := by
  have hnone := hs.holder hv h
  have hst := h.stands i
  generalize ht : s.thread i = t at hst
  cases hst with
  | inside hi _ _ => simp [hnone] at hi
  | @outside ℓ _ _ _ =>
    rcases hs.running ht with ⟨calls, hc⟩ | ⟨f, hc, hf⟩ | ⟨k, _, hsome⟩
    · exact .idle hc
    · exact .disabled hc hf
    · exact absurd hnone hsome
  | parked _ hm hw _ =>
    rcases hm with rfl | rfl
    · exact .asleep hw
    · exact absurd (.retake (by rw [ht]) hnone) (hs _)

/-! ## Signals -/

/-- An account of the notifications of one condition variable. `due ℓ` tells when a thread that
waits at `ℓ` should not sleep, `cap` for how many threads there is something to do, and `owes`
how many notifications a thread at `ℓ` has still to see to; a broadcast counts as `⊤`. -/
structure Signals (L σ : Type*) where
  due : L → σ → Prop
  cap : σ → ℕ∞
  owes : L → ℕ∞

namespace Signals

/-- What has to be shown of one statement: who makes work owes a notification, and who was
notified either takes the work or finds none. -/
def Kept (S : Signals L σ) (O : Outline ι L σ) (code : ι → L → Instr L σ C) (cv : C) (i : ι)
    (ℓ : L) : Instr L σ C → Prop
  | .idle calls => ∀ k, calls k → S.owes ℓ ≤ S.owes k
  | .act f =>
    ∀ s s' k, f s s' k → O.away i ℓ s →
      S.owes ℓ ≤ S.owes k ∧ S.cap s' ≤ S.cap s ∧ ∀ m, S.due m s' → S.due m s
  | .lock k | .unlock k => S.owes ℓ ≤ S.owes k
  | .access f =>
    S.owes ℓ ≠ ⊤ ∧
      ∀ s, O.held i ℓ s →
        S.cap (f s).1 + S.owes ℓ ≤ S.cap s + S.owes (f s).2 ∧
          ∀ m, S.due m (f s).1 → S.due m s ∨ S.cap (f s).1 ≤ S.owes (f s).2
  | .wait c p k =>
    S.owes ℓ ≤ S.owes k ∧
      ∀ s, O.held i ℓ s → p s = false →
        (c = cv → ¬ S.due ℓ s) ∧ (S.owes ℓ = 0 ∨ S.cap s = 0)
  | .notifyOne c k =>
    (c = cv → ∀ j w p k', code j w = .wait cv p k' → S.owes ℓ ≤ S.owes k + S.owes w) ∧
      (c ≠ cv → S.owes ℓ ≤ S.owes k)
  | .notifyAll c k => c ≠ cv → S.owes ℓ ≤ S.owes k

def credit (S : Signals L σ) (t : Thread L C) : ℕ∞ :=
  match t.mode with
  | .asleep _ => 0
  | _ => S.owes t.place

/-- Either nobody sleeps who should not, or enough notifications are on their way. -/
def Answered [Fintype ι] (S : Signals L σ) (cv : C) (s : State ι L σ C) : Prop :=
  (∀ i, (s.thread i).mode = .asleep cv → ¬ S.due (s.thread i).place s.shared) ∨
    S.cap s.shared ≤ ∑ i, S.credit (s.thread i)

/-- The account where a single thread waits: while `ready` holds, one notification is enough. -/
def single (ready : σ → Bool) (owes : L → ℕ∞) : Signals L σ where
  due _ s := ready s = true
  cap s := if ready s then 1 else 0
  owes := owes

section Single

variable {ready : σ → Bool} {owes : L → ℕ∞} {x x' : σ} {k : L}

omit [DecidableEq ι] [DecidableEq C]

theorem single_cap_mono (h : ready x' = true → ready x = true) :
    (single ready owes).cap x' ≤ (single ready owes).cap x := by
  simp only [single]
  cases hx' : ready x'
  · simp
  · simp [h hx']

/-- A statement that makes nothing ready. -/
theorem single_idle (howes : owes ℓ ≤ owes k) (h : ready x' = true → ready x = true) :
    (single ready owes).cap x' + (single ready owes).owes ℓ ≤
        (single ready owes).cap x + (single ready owes).owes k ∧
      ∀ m, (single ready owes).due m x' →
        (single ready owes).due m x ∨ (single ready owes).cap x' ≤ (single ready owes).owes k :=
  ⟨add_le_add (single_cap_mono h) howes, fun _ hd => .inl (h hd)⟩

/-- A statement that leaves one who answers for what is ready. -/
theorem single_answered (hk : owes k = 1) (hℓ : owes ℓ ≤ 1)
    (h : (ready x' = true → ready x = true) ∨ owes ℓ = 0) :
    (single ready owes).cap x' + (single ready owes).owes ℓ ≤
        (single ready owes).cap x + (single ready owes).owes k ∧
      ∀ m, (single ready owes).due m x' →
        (single ready owes).due m x ∨ (single ready owes).cap x' ≤ (single ready owes).owes k := by
  have hone : (single ready owes).cap x' ≤ (single ready owes).owes k := by
    simp only [single, hk]
    split <;> simp
  refine ⟨?_, fun _ _ => .inr hone⟩
  rcases h with hmono | hzero
  · exact add_le_add (single_cap_mono hmono) (hℓ.trans_eq hk.symm)
  · have hnone : (single ready owes).owes ℓ = 0 := hzero
    rw [hnone, add_zero]
    exact hone.trans le_add_self

/-- The waiter sleeps only while nothing is ready. -/
theorem single_wait {c cv : C} (howes : owes ℓ ≤ owes k) :
    (single ready owes).Kept O code cv i ℓ (.wait c ready k) := by
  refine ⟨howes, fun x _ hx => ⟨fun _ => ?_, .inr ?_⟩⟩
  · simp [single, hx]
  · simp [single, hx]

end Single

variable [Fintype ι] {S : Signals L σ} {cv : C}

omit [DecidableEq C]

theorem total_split (S : Signals L σ) (g : ι → Thread L C) (i : ι) :
    ∑ j, S.credit (g j) = S.credit (g i) + ∑ j ∈ Finset.univ.erase i, S.credit (g j) :=
  (Finset.add_sum_erase _ _ (Finset.mem_univ i)).symm

theorem total_update (S : Signals L σ) (g : ι → Thread L C) (i : ι) (t : Thread L C) :
    ∑ j, S.credit (Function.update g i t j) =
      S.credit t + ∑ j ∈ Finset.univ.erase i, S.credit (g j) := by
  rw [total_split S _ i, Function.update_self]
  congr 1
  refine Finset.sum_congr rfl fun j hj => ?_
  rw [Function.update_of_ne (Finset.ne_of_mem_erase hj)]

theorem total_le_update (S : Signals L σ) (g : ι → Thread L C) {i : ι} {t : Thread L C}
    (h : S.credit (g i) ≤ S.credit t) :
    ∑ j, S.credit (g j) ≤ ∑ j, S.credit (Function.update g i t j) := by
  rw [total_update, total_split S g i]
  exact add_le_add h le_rfl

/-- A thread moves on without giving up what it owes, and makes no work. -/
theorem Answered.put (h : S.Answered cv s) {t : Thread L C} {shared : σ} {holder : Option ι}
    (hcredit : S.credit (s.thread i) ≤ S.credit t) (hcap : S.cap shared ≤ S.cap s.shared)
    (hdue : ∀ m, S.due m shared → S.due m s.shared)
    (ht : t.mode = .asleep cv → ¬ S.due t.place shared) :
    S.Answered cv ⟨shared, holder, Function.update s.thread i t⟩ := by
  rcases h with hnone | hle
  · refine .inl fun j hj => ?_
    by_cases hne : j = i
    · subst hne
      simp only [Function.update_self] at hj ⊢
      exact ht hj
    · simp only [Function.update_of_ne hne] at hj ⊢
      exact fun hd => hnone j hj (hdue _ hd)
  · exact .inr ((hcap.trans hle).trans (total_le_update S s.thread hcredit))

theorem Answered.goto (h : S.Answered cv s) {k : L} (hi : s.thread i = ⟨ℓ, .running⟩)
    (hk : S.owes ℓ ≤ S.owes k) : S.Answered cv (s.goto i k) :=
  h.put (by simpa [hi, credit] using hk) le_rfl (fun _ hd => hd) (by simp)

theorem Answered.wake (h : S.Answered cv s) {u : ι} : S.Answered cv (s.setMode u .woken) := by
  refine h.put ?_ le_rfl (fun _ hd => hd) (by simp)
  cases hm : (s.thread u).mode <;> simp [credit, hm]

/-- A section makes work and takes on the notifications for it, or takes work up. -/
theorem Answered.access (h : S.Answered cv s) {shared : σ} {k : L}
    (hi : s.thread i = ⟨ℓ, .running⟩) (hfin : S.owes ℓ ≠ ⊤)
    (hcap : S.cap shared + S.owes ℓ ≤ S.cap s.shared + S.owes k)
    (hdue : ∀ m, S.due m shared → S.due m s.shared ∨ S.cap shared ≤ S.owes k) :
    S.Answered cv ({ s with shared := shared }.goto i k) := by
  have htotal : ∑ j, S.credit (({ s with shared := shared }.goto i k).thread j) =
      S.owes k + ∑ j ∈ Finset.univ.erase i, S.credit (s.thread j) :=
    total_update S s.thread i ⟨k, .running⟩
  rcases h with hnone | hle
  · by_cases hmade : S.cap shared ≤ S.owes k
    · exact .inr (htotal ▸ hmade.trans le_self_add)
    · refine .inl fun j hj => ?_
      by_cases hne : j = i
      · subst hne
        simp at hj
      · rw [goto_other _ hne] at hj ⊢
        exact fun hd => (hdue _ hd).elim (hnone j hj) hmade
  · refine .inr (htotal ▸ ?_)
    rw [total_split S s.thread i, hi] at hle
    have hsum : S.cap shared + S.owes ℓ ≤
        S.owes k + (∑ j ∈ Finset.univ.erase i, S.credit (s.thread j)) + S.owes ℓ := by
      calc S.cap shared + S.owes ℓ ≤ S.cap s.shared + S.owes k := hcap
        _ ≤ S.owes ℓ + (∑ j ∈ Finset.univ.erase i, S.credit (s.thread j)) + S.owes k :=
          add_le_add hle le_rfl
        _ = _ := by ac_rfl
    exact (WithTop.add_le_add_iff_right hfin).mp hsum

/-- Nobody sleeps when the notification is over. -/
theorem Answered.nobody (S : Signals L σ) (h : ∀ j, (s.thread j).mode ≠ .asleep cv) (k : L) :
    S.Answered cv (s.goto i k) := by
  refine .inl fun j hj => ?_
  by_cases hne : j = i
  · subst hne
    simp at hj
  · rw [goto_other _ hne] at hj
    exact absurd hj (h j)

/-- A thread goes to sleep only when its predicate fails. -/
theorem Answered.park (h : S.Answered cv s) {c : C} (hi : s.thread i = ⟨ℓ, .running⟩)
    (hdue : c = cv → ¬ S.due ℓ s.shared) (howes : S.owes ℓ = 0 ∨ S.cap s.shared = 0) :
    S.Answered cv ({ s with holder := none }.setMode i (.asleep c)) := by
  rcases howes with hzero | hcap
  · refine h.put (by simp [hi, credit, hzero]) le_rfl (fun _ hd => hd) ?_
    simpa [hi] using hdue
  · exact .inr (hcap.trans_le bot_le)

/-- The thread that is woken takes over the notification. -/
theorem Answered.wakeOne (h : S.Answered cv s) {u : ι} {k : L} (hne : i ≠ u)
    (hi : s.thread i = ⟨ℓ, .running⟩) (hu : (s.thread u).mode = .asleep cv)
    (howes : S.owes ℓ ≤ S.owes k + S.owes (s.thread u).place) :
    S.Answered cv ((s.setMode u .woken).goto i k) := by
  rcases h with hnone | hle
  · refine .inl fun j hj => ?_
    by_cases hji : j = i
    · subst hji
      simp at hj
    · rw [goto_other _ hji] at hj ⊢
      by_cases hju : j = u
      · subst hju
        simp at hj
      · rw [setMode_other _ hju] at hj ⊢
        exact hnone j hj
  · refine .inr (hle.trans ?_)
    have hmem : u ∈ Finset.univ.erase i := by simp [hne.symm]
    calc ∑ j, S.credit (s.thread j)
        = S.owes ℓ + ∑ j ∈ (Finset.univ.erase i).erase u, S.credit (s.thread j) := by
          rw [total_split S s.thread i, ← Finset.add_sum_erase _ _ hmem]
          simp [hi, hu, credit]
      _ ≤ S.owes k + S.owes (s.thread u).place +
            ∑ j ∈ (Finset.univ.erase i).erase u, S.credit (s.thread j) :=
          add_le_add howes le_rfl
      _ = ∑ j, S.credit (((s.setMode u .woken).goto i k).thread j) := by
          have hrest : ∀ j ∈ (Finset.univ.erase i).erase u,
              S.credit ((s.setMode u .woken).thread j) = S.credit (s.thread j) := by
            intro j hj
            rw [setMode_other _ (Finset.ne_of_mem_erase hj)]
          rw [State.goto, total_update, ← Finset.add_sum_erase _ _ hmem,
            Finset.sum_congr rfl hrest, ← add_assoc]
          simp [credit]

omit [DecidableEq ι]

variable [DecidableEq C]

theorem Answered.wakeOthers (h : S.Answered cv s) (c : C) :
    S.Answered cv (s.wakeAll c) := by
  rcases h with hnone | hle
  · refine .inl fun j hj => ?_
    simp only [State.wakeAll] at hj ⊢
    split at hj
    · simp at hj
    · rename_i hother
      rw [if_neg hother]
      exact hnone j hj
  · refine .inr (hle.trans (Finset.sum_le_sum fun j _ => ?_))
    simp only [State.wakeAll]
    split
    case isTrue hj => simp [credit, hj]
    case isFalse => exact le_rfl

variable [DecidableEq ι]

theorem Answered.quiet (hv : ∀ i ℓ, O.Verified i ℓ (code i ℓ))
    (hk : ∀ i ℓ, S.Kept O code cv i ℓ (code i ℓ)) (hso : O.Sound code s) (h : S.Answered cv s)
    (hs : Quiet code s s') : S.Answered cv s' := by
  cases hs with
  | @act i ℓ f σ' k hi hc hf =>
    have hver := hv i ℓ
    have hkept := hk i ℓ
    rw [hc] at hver hkept
    obtain ⟨howes, hcap, hdue⟩ := hkept _ _ _ hf (hso.away hi hver.1).2
    exact h.put (by simpa [hi, credit] using howes) hcap hdue (by simp)
  | @lock i ℓ k hi hc _ =>
    have hkept := hk i ℓ
    rw [hc] at hkept
    have howes : S.owes ℓ ≤ S.owes k := hkept
    exact h.put (by simpa [hi, credit] using howes) le_rfl (fun _ hd => hd) (by simp)
  | @unlock i ℓ k hi hc =>
    have hkept := hk i ℓ
    rw [hc] at hkept
    have howes : S.owes ℓ ≤ S.owes k := hkept
    exact h.put (by simpa [hi, credit] using howes) le_rfl (fun _ hd => hd) (by simp)
  | @access i ℓ f hi hc =>
    have hver := hv i ℓ
    have hkept := hk i ℓ
    rw [hc] at hver hkept
    obtain ⟨hcap, hdue⟩ := hkept.2 _ (hso.held hi hver.1).2
    exact h.access hi hkept.1 hcap hdue
  | @pass i ℓ c p k hi hc _ =>
    have hkept := hk i ℓ
    rw [hc] at hkept
    exact h.goto hi hkept.1
  | @park i ℓ c p k hi hc hp =>
    have hver := hv i ℓ
    have hkept := hk i ℓ
    rw [hc] at hver hkept
    obtain ⟨hdue, howes⟩ := hkept.2 _ (hso.held hi hver.1).2 hp
    exact h.park hi hdue howes
  | @retake i hm _ =>
    exact h.put (by simp [credit, hm]) le_rfl (fun _ hd => hd) (by simp)
  | @wakeOne i u ℓ c k hi hc hu =>
    have hne : i ≠ u := by
      rintro rfl
      simp [hi] at hu
    have hkept := hk i ℓ
    rw [hc] at hkept
    by_cases hcv : c = cv
    · subst hcv
      obtain ⟨_, _, c', p, k', hw, hm⟩ := hso.parked (i := u) (by simp [hu])
      obtain rfl : c = c' := by simpa [hu] using hm
      exact h.wakeOne hne hi hu (hkept.1 rfl u _ p k' hw)
    · exact h.wake.goto ((setMode_other s hne _).trans hi) (hkept.2 hcv)
  | @wakeNone i ℓ c k hi hc hnobody =>
    have hkept := hk i ℓ
    rw [hc] at hkept
    by_cases hcv : c = cv
    · subst hcv
      exact .nobody S hnobody k
    · exact h.goto hi (hkept.2 hcv)
  | @wakeAll i ℓ c k hi hc =>
    have hkept := hk i ℓ
    rw [hc] at hkept
    have hi' : (s.wakeAll c).thread i = ⟨ℓ, .running⟩ := by simp [State.wakeAll, hi]
    by_cases hcv : c = cv
    · subst hcv
      exact .nobody S (wakeAll_awake s c) k
    · exact (h.wakeOthers c).goto hi' (hkept hcv)

theorem Answered.step (hv : ∀ i ℓ, O.Verified i ℓ (code i ℓ))
    (hk : ∀ i ℓ, S.Kept O code cv i ℓ (code i ℓ)) (hso : O.Sound code s) (h : S.Answered cv s)
    (hs : Step code s s') : S.Answered cv s' := by
  cases hs with
  | quiet hq => exact h.quiet hv hk hso hq
  | @call i ℓ calls k hi hc hcalls =>
    have hkept := hk i ℓ
    rw [hc] at hkept
    exact h.goto hi (hkept k hcalls)
  | spurious hu => exact h.wake

/-- The account stays balanced over every interleaving. -/
theorem reachable_answered (hv : ∀ i ℓ, O.Verified i ℓ (code i ℓ))
    (hk : ∀ i ℓ, S.Kept O code cv i ℓ (code i ℓ)) {shared : σ} {pc : ι → L}
    (hfree : O.free shared) (hpc : ∀ i, O.holds (pc i) = false ∧ O.away i (pc i) shared)
    (hr : Transitions.Reachable (Step code) (start shared pc) s) : S.Answered cv s := by
  have hboth : O.Sound code s ∧ S.Answered cv s := by
    refine hr.invariant (I := fun s => O.Sound code s ∧ S.Answered cv s)
      ⟨reachable_sound hv hfree hpc .initial, .inl ?_⟩ fun _ _ h _ hs => ?_
    · simp [start]
    · exact ⟨h.1.step hv hs, h.2.step hv hk h.1 hs⟩
  exact hboth.2

omit [DecidableEq C] [DecidableEq ι] in
/-- No wakeup is lost: when nobody owes a notification, whoever sleeps has nothing to do. -/
theorem Answered.unowed (h : S.Answered cv s) (howes : ∀ j, S.credit (s.thread j) = 0)
    (hcap : ∀ m shared, S.cap shared = 0 → ¬ S.due m shared)
    (hi : (s.thread i).mode = .asleep cv) : ¬ S.due (s.thread i).place s.shared := by
  rcases h with hnone | hle
  · exact hnone i hi
  · have hzero : ∑ j, S.credit (s.thread j) = 0 := Finset.sum_eq_zero fun j _ => howes j
    exact hcap _ _ (le_antisymm (hle.trans_eq hzero) bot_le)

omit [DecidableEq C] [DecidableEq ι] in
theorem Answered.single_unowed {ready : σ → Bool} {owes : L → ℕ∞}
    (h : (single ready owes).Answered cv s)
    (howes : ∀ j, (single ready owes).credit (s.thread j) = 0)
    (hi : (s.thread i).mode = .asleep cv) : ready s.shared = false := by
  refine Bool.eq_false_iff.mpr (h.unowed howes (fun m shared hcap hd => ?_) hi)
  have hready : ready shared = true := hd
  simp [single, hready] at hcap

end Signals

/-! ## Ranking -/

/-- How much a thread at a place has still to do, and how much work the shared state holds. A
notification pays for the threads that it wakes. -/
structure Ranking (L σ : Type*) where
  rank : L → ℕ
  work : σ → ℕ

namespace Ranking

variable [Fintype ι]

/-- What has to be shown of one statement. -/
def Descends (R : Ranking L σ) (O : Outline ι L σ) (code : ι → L → Instr L σ C) (i : ι) (ℓ : L) :
    Instr L σ C → Prop
  | .idle _ => True
  | .act f => ∀ s s' k, f s s' k → O.away i ℓ s → R.rank k + R.work s' < R.rank ℓ + R.work s
  | .lock k | .unlock k => R.rank k < R.rank ℓ
  | .access f =>
    ∀ s, O.held i ℓ s → R.rank (f s).2 + R.work (f s).1 < R.rank ℓ + R.work s
  | .wait _ _ k => R.rank k < R.rank ℓ
  | .notifyOne c k =>
    R.rank k < R.rank ℓ ∧
      ∀ j w p k', code j w = .wait c p k' → R.rank k + (R.rank w + 1) < R.rank ℓ
  | .notifyAll c k =>
    ∃ b, (∀ j w p k', code j w = .wait c p k' → R.rank w < b) ∧
      R.rank k + Fintype.card ι * b < R.rank ℓ

omit [DecidableEq ι] [DecidableEq C] in
/-- What a statement costs depends on the waits of the others only. -/
theorem Descends.recode {R : Ranking L σ} {code' : ι → L → Instr L σ C} {I : Instr L σ C}
    (hw : ∀ j m cv p k, code' j m = .wait cv p k → code j m = .wait cv p k)
    (h : R.Descends O code i ℓ I) : R.Descends O code' i ℓ I := by
  cases I with
  | notifyOne c k => exact ⟨h.1, fun j m p k' hc => h.2 j m p k' (hw _ _ _ _ _ hc)⟩
  | notifyAll c k =>
    obtain ⟨b, hb, hlt⟩ := h
    exact ⟨b, fun j m p k' hc => hb j m p k' (hw _ _ _ _ _ hc), hlt⟩
  | _ => exact h

def weight (R : Ranking L σ) (t : Thread L C) : ℕ :=
  match t.mode with
  | .running => R.rank t.place
  | .asleep _ => 0
  | .woken => R.rank t.place + 1

def total (R : Ranking L σ) (s : State ι L σ C) : ℕ :=
  R.work s.shared + ∑ i, R.weight (s.thread i)

variable {R : Ranking L σ}

omit [DecidableEq C]

/-- One summand changes. -/
theorem sum_put (R : Ranking L σ) (g : ι → Thread L C) (i : ι) (t : Thread L C) :
    ∑ j, R.weight (Function.update g i t j) + R.weight (g i) =
      ∑ j, R.weight (g j) + R.weight t := by
  have hrest : ∀ j ∈ Finset.univ.erase i,
      R.weight (Function.update g i t j) = R.weight (g j) := by
    intro j hj
    rw [Function.update_of_ne (Finset.ne_of_mem_erase hj)]
  rw [← Finset.add_sum_erase _ _ (Finset.mem_univ i), Finset.sum_congr rfl hrest,
    ← Finset.add_sum_erase _ (fun j => R.weight (g j)) (Finset.mem_univ i), Function.update_self]
  ring

theorem put_lt {s : State ι L σ C} {i : ι} {t : Thread L C} {shared : σ} {holder : Option ι}
    (h : R.weight t + R.work shared < R.weight (s.thread i) + R.work s.shared) :
    R.total ⟨shared, holder, Function.update s.thread i t⟩ < R.total s := by
  have hsum := R.sum_put s.thread i t
  simp only [total]
  omega

theorem goto_lt {s : State ι L σ C} {i : ι} {ℓ k : L} (hi : s.thread i = ⟨ℓ, .running⟩)
    (h : R.rank k < R.rank ℓ) : R.total (s.goto i k) < R.total s :=
  put_lt (by simpa [hi, weight] using h)

theorem wakeOne_lt {s : State ι L σ C} {i u : ι} {ℓ k : L} {cv : C} (hne : i ≠ u)
    (hi : s.thread i = ⟨ℓ, .running⟩) (hu : (s.thread u).mode = .asleep cv)
    (h : R.rank k + (R.rank (s.thread u).place + 1) < R.rank ℓ) :
    R.total ((s.setMode u .woken).goto i k) < R.total s := by
  have hwake := R.sum_put s.thread u ⟨(s.thread u).place, .woken⟩
  have hmove := R.sum_put (s.setMode u .woken).thread i ⟨k, .running⟩
  rw [setMode_other s hne, hi] at hmove
  simp only [hu, weight] at hwake
  simp only [weight] at hmove
  simp only [total, State.goto, State.setMode, weight] at hmove ⊢
  omega

variable [DecidableEq C]

/-- A broadcast wakes every thread at most. -/
theorem wakeAll_lt {s : State ι L σ C} {i : ι} {ℓ k : L} {cv : C} {b : ℕ}
    (hi : s.thread i = ⟨ℓ, .running⟩)
    (hb : ∀ j, (s.thread j).mode = .asleep cv → R.rank (s.thread j).place < b)
    (h : R.rank k + Fintype.card ι * b < R.rank ℓ) :
    R.total ((s.wakeAll cv).goto i k) < R.total s := by
  have hwake : ∑ j, R.weight ((s.wakeAll cv).thread j) ≤
      ∑ j, R.weight (s.thread j) + Fintype.card ι * b := by
    calc ∑ j, R.weight ((s.wakeAll cv).thread j)
        ≤ ∑ j, (R.weight (s.thread j) + b) := by
          refine Finset.sum_le_sum fun j _ => ?_
          simp only [State.wakeAll]
          split
          case isTrue hj =>
            have := hb j hj
            simp only [weight, hj]
            omega
          case isFalse => omega
      _ = _ := by simp [Finset.sum_add_distrib]
  have hmove := R.sum_put (s.wakeAll cv).thread i ⟨k, .running⟩
  have hi' : (s.wakeAll cv).thread i = ⟨ℓ, .running⟩ := by simp [State.wakeAll, hi]
  rw [hi'] at hmove
  simp only [weight] at hmove hwake
  simp only [total, State.goto, weight] at hmove ⊢
  have hshared : (s.wakeAll cv).shared = s.shared := rfl
  rw [hshared]
  omega

theorem quiet_lt (hv : ∀ i ℓ, O.Verified i ℓ (code i ℓ))
    (hd : ∀ i ℓ, R.Descends O code i ℓ (code i ℓ)) (hso : O.Sound code s)
    (hs : Quiet code s s') : R.total s' < R.total s := by
  cases hs with
  | @act i ℓ f σ' k hi hc hf =>
    have hver := hv i ℓ
    have hdesc := hd i ℓ
    rw [hc] at hver hdesc
    have hlt := hdesc _ _ _ hf (hso.away hi hver.1).2
    exact put_lt (s := s) (i := i) (t := ⟨_, .running⟩) (by simpa [hi, weight] using hlt)
  | @lock i ℓ k hi hc _ =>
    have hdesc := hd i ℓ
    rw [hc] at hdesc
    have hlt : R.rank k < R.rank ℓ := hdesc
    exact put_lt (by simpa [hi, weight] using hlt)
  | @unlock i ℓ k hi hc =>
    have hdesc := hd i ℓ
    rw [hc] at hdesc
    have hlt : R.rank k < R.rank ℓ := hdesc
    exact put_lt (by simpa [hi, weight] using hlt)
  | @access i ℓ f hi hc =>
    have hver := hv i ℓ
    have hdesc := hd i ℓ
    rw [hc] at hver hdesc
    have hlt := hdesc _ (hso.held hi hver.1).2
    exact put_lt (s := s) (i := i) (t := ⟨_, .running⟩) (by simpa [hi, weight] using hlt)
  | @pass i ℓ c p k hi hc _ =>
    have hdesc := hd i ℓ
    rw [hc] at hdesc
    exact goto_lt hi hdesc
  | @park i ℓ c p k hi hc _ =>
    have hdesc := hd i ℓ
    rw [hc] at hdesc
    have hlt : R.rank k < R.rank ℓ := hdesc
    exact put_lt (by simp [hi, weight]; omega)
  | @retake i hm _ => exact put_lt (by simp [hm, weight])
  | @wakeOne i u ℓ c k hi hc hu =>
    have hdesc := hd i ℓ
    rw [hc] at hdesc
    have hne : i ≠ u := by
      rintro rfl
      simp [hi] at hu
    obtain ⟨_, _, c', p, k', hw, hm⟩ := hso.parked (i := u) (by simp [hu])
    obtain rfl : c = c' := by simpa [hu] using hm
    exact wakeOne_lt hne hi hu (hdesc.2 u _ p k' hw)
  | @wakeNone i ℓ c k hi hc _ =>
    have hdesc := hd i ℓ
    rw [hc] at hdesc
    exact goto_lt hi hdesc.1
  | @wakeAll i ℓ c k hi hc =>
    have hdesc := hd i ℓ
    rw [hc] at hdesc
    obtain ⟨b, hb, hlt⟩ := hdesc
    refine wakeAll_lt hi (fun j hj => ?_) hlt
    obtain ⟨_, _, c', p, k', hw, hm⟩ := hso.parked (i := j) (by simp [hj])
    obtain rfl : c = c' := by simpa [hj] using hm
    exact hb j _ p k' hw

/-- Without new calls and spurious wakeups every schedule comes to an end. -/
theorem run_length_le (hv : ∀ i ℓ, O.Verified i ℓ (code i ℓ))
    (hd : ∀ i ℓ, R.Descends O code i ℓ (code i ℓ)) {run : ℕ → State ι L σ C} {n : ℕ}
    (hso : O.Sound code (run 0)) (hrun : ∀ k < n, Quiet code (run k) (run (k + 1))) :
    n ≤ R.total (run 0) := by
  refine Transitions.run_length_le (fun s s' h hs => ?_) hso hrun
  exact ⟨h.quiet hv hs, quiet_lt hv hd h hs⟩

end Ranking

end Monitor
