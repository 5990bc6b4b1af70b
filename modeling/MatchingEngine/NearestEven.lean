import Mathlib.Algebra.Order.Field.Basic
import Mathlib.Algebra.Order.Ring.Cast
import Mathlib.Algebra.Ring.Int.Parity
import Mathlib.Tactic.FieldSimp
import Mathlib.Tactic.Linarith

/-! # The nearest integer, ties to even -/
namespace NearestEven

variable {K : Type*} [Field K] [LinearOrder K] [IsStrictOrderedRing K]

/-- No integer is nearer to `a` than `r`, and `r` is even if another one is as near. -/
structure Nearest (a : K) (r : ℤ) : Prop where
  near : |a - r| ≤ 1 / 2
  tie : |a - r| = 1 / 2 → Even r

variable {a b : K} {r s : ℤ}

theorem Nearest.bounds (h : Nearest a r) : (r : K) - 1 / 2 ≤ a ∧ a ≤ r + 1 / 2 := by
  have hnear := abs_le.mp h.near
  constructor <;> linarith

/-- What is rounded keeps its order. -/
theorem Nearest.mono (ha : Nearest a r) (hb : Nearest b s) (hab : a ≤ b) : r ≤ s := by
  by_contra hlt
  have hstep : s + 1 ≤ r := by omega
  have hcast : (s : K) + 1 ≤ r := by exact_mod_cast hstep
  have ha' := ha.bounds
  have hb' := hb.bounds
  -- both are ties between two neighbours, which are not both even
  have hr : r = s + 1 := by
    have : (r : K) ≤ s + 1 := by linarith
    have : r ≤ s + 1 := by exact_mod_cast this
    omega
  have hleft : a - r = -(1 / 2) := by
    rw [hr] at ha' ⊢
    push_cast at ha' ⊢
    linarith
  have hright : b - s = 1 / 2 := by
    have : (r : K) = s + 1 := by exact_mod_cast hr
    linarith
  have hevenr : Even r := ha.tie (by rw [hleft, abs_neg, abs_of_pos (by norm_num)])
  have hevens : Even s := hb.tie (by rw [hright, abs_of_pos (by norm_num)])
  rw [hr] at hevenr
  exact Int.not_even_iff_odd.mpr hevens.add_one hevenr

theorem Nearest.unique (ha : Nearest a r) (hb : Nearest a s) : r = s :=
  le_antisymm (ha.mono hb le_rfl) (hb.mono ha le_rfl)

omit [IsStrictOrderedRing K] in
/-- An integer less than half away is the nearest. -/
theorem nearest_of_lt (h : |a - r| < 1 / 2) : Nearest a r :=
  ⟨h.le, fun heq => absurd heq h.ne⟩

/-- The nearest to a quotient, by the remainder of twice the numerator. -/
theorem nearest_div {n d : ℤ} (hd : 0 < d) (hnear : |2 * n - 2 * (d * r)| ≤ d)
    (htie : |2 * n - 2 * (d * r)| = d → Even r) : Nearest ((n : K) / d) r := by
  have hpos : (0 : K) < d := by exact_mod_cast hd
  have hscale : |(n : K) / d - r| = (|2 * n - 2 * (d * r)| : ℤ) / (2 * d) := by
    have hdiff : (n : K) / d - r = ((2 * n - 2 * (d * r) : ℤ) : K) / (2 * d) := by
      push_cast
      field_simp
    rw [hdiff, abs_div, abs_of_pos (by linarith : (0 : K) < 2 * d), Int.cast_abs]
  constructor
  · rw [hscale, div_le_div_iff₀ (by linarith) (by norm_num)]
    have : ((|2 * n - 2 * (d * r)| : ℤ) : K) ≤ d := by exact_mod_cast hnear
    linarith
  · intro heq
    rw [hscale, div_eq_div_iff (by linarith) (by norm_num)] at heq
    refine htie ?_
    have : ((|2 * n - 2 * (d * r)| : ℤ) : K) = d := by linarith
    exact_mod_cast this

end NearestEven
