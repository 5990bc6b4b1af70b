import Mathlib.Data.Nat.Notation
import Mathlib.Tactic.TypeStar

/-! # Runs of a step relation -/
namespace Transitions

variable {σ : Type*}

/-- States reached from `s₀` by steps out of states that satisfy `P`. -/
inductive ReachedBy (step : σ → σ → Prop) (P : σ → Prop) (s₀ : σ) : σ → Prop
  | initial : ReachedBy step P s₀ s₀
  | next {s s' : σ} : ReachedBy step P s₀ s → P s → step s s' → ReachedBy step P s₀ s'

abbrev Reachable (step : σ → σ → Prop) (s₀ : σ) : σ → Prop := ReachedBy step (fun _ => True) s₀

namespace ReachedBy

variable {step : σ → σ → Prop} {P Q I : σ → Prop} {s₀ s : σ}

/-- What holds at the start and is kept by every step of the run holds in every state of it. -/
theorem invariant (h : ReachedBy step P s₀ s) (h₀ : I s₀)
    (hstep : ∀ s s', I s → P s → step s s' → I s') : I s := by
  induction h with
  | initial => exact h₀
  | next _ hp hs ih => exact hstep _ _ ih hp hs

theorem map {step' : σ → σ → Prop} (h : ReachedBy step P s₀ s)
    (hstep : ∀ {s s'}, step s s' → step' s s') : ReachedBy step' P s₀ s := by
  induction h with
  | initial => exact .initial
  | next _ hp hs ih => exact .next ih hp (hstep hs)

theorem trans {s' : σ} (h : ReachedBy step P s₀ s) (h' : ReachedBy step P s s') :
    ReachedBy step P s₀ s' := by
  induction h' with
  | initial => exact h
  | next _ hp hs ih => exact .next ih hp hs

end ReachedBy

/-- Where each step lowers a rank, no run is longer than the rank that it begins with. -/
theorem run_length_le {step : σ → σ → Prop} {I : σ → Prop} {rank : σ → ℕ}
    (hstep : ∀ s s', I s → step s s' → I s' ∧ rank s' < rank s) {run : ℕ → σ} {n : ℕ}
    (h₀ : I (run 0)) (hrun : ∀ k < n, step (run k) (run (k + 1))) : n ≤ rank (run 0) := by
  have hall : ∀ k ≤ n, I (run k) ∧ rank (run k) + k ≤ rank (run 0) := by
    intro k
    induction k with
    | zero => exact fun _ => ⟨h₀, Nat.le_refl _⟩
    | succ k ih =>
      intro hk
      obtain ⟨hi, hle⟩ := ih (by omega)
      obtain ⟨hi', hlt⟩ := hstep _ _ hi (hrun k (by omega))
      exact ⟨hi', by omega⟩
  have := (hall n (Nat.le_refl _)).2
  omega

end Transitions
