import Mathlib.Algebra.BigOperators.Intervals

/-! # Loops with a stride, and sums in lanes

A counted loop whose body can fail, and the sum of a range taken several indices at a time into
as many accumulators. -/
namespace StridedLoop

open Finset

/-! ## Loops -/

section Loops

variable {ε σ : Type*}

/-- How often the body of `for (i = start; i < stop; i += stride)` runs. -/
def trips (start stop stride : ℕ) : ℕ := (stop - start + (stride - 1)) / stride

/-- `for (i = start; i < stop; i += stride)` -/
def loop (start stop stride : ℕ) (body : ℕ → σ → Except ε σ) (s : σ) : Except ε σ :=
  (List.range' start (trips start stop stride) stride).foldlM (fun s i => body i s) s

/-- A loop that has `state k` after each number `k` of turns. -/
theorem loop_eq {start stop stride : ℕ} {body : ℕ → σ → Except ε σ} (state : ℕ → σ)
    (hstep : ∀ k < trips start stop stride,
      body (start + stride * k) (state k) = .ok (state (k + 1))) :
    loop start stop stride body (state 0) = .ok (state (trips start stop stride)) := by
  rw [loop]
  generalize trips start stop stride = m at hstep ⊢
  induction m with
  | zero => rfl
  | succ m ih =>
    rw [List.range'_concat, List.foldlM_append, ih fun k hk => hstep k (Nat.lt_succ_of_lt hk)]
    change (body (start + stride * m) (state m) >>= pure) = _
    rw [hstep m (Nat.lt_succ_self m)]
    rfl

@[simp] theorem trips_one (start stop : ℕ) : trips start stop 1 = stop - start := by
  simp [trips]

theorem trips_mul (stride m : ℕ) (h : 0 < stride) : trips 0 (stride * m) stride = m := by
  rw [trips, Nat.sub_zero, Nat.mul_add_div h, Nat.div_eq_of_lt (by omega), Nat.add_zero]

end Loops

/-! ## Lanes -/

section Lanes

variable {M : Type*} [AddCommMonoid M] (w : ℕ) (f : ℕ → M)

/-- What lane `l` of `w` has added up after `m` turns. -/
def lane (m l : ℕ) : M := ∑ k ∈ range m, f (w * k + l)

@[simp] theorem lane_zero (l : ℕ) : lane w f 0 l = 0 := sum_range_zero _

theorem lane_succ (m l : ℕ) : lane w f (m + 1) l = lane w f m l + f (w * m + l) :=
  sum_range_succ _ _

/-- The lanes together have every term once. -/
theorem sum_lanes (m : ℕ) : ∑ l ∈ range w, lane w f m l = ∑ i ∈ range (w * m), f i := by
  induction m with
  | zero => simp
  | succ m ih =>
    have hblock : ∀ l ∈ range w, lane w f (m + 1) l = lane w f m l + f (w * m + l) :=
      fun l _ => lane_succ w f m l
    rw [sum_congr rfl hblock, sum_add_distrib, ih, Nat.mul_succ, sum_range_add]

end Lanes

end StridedLoop
