import Mathlib.Data.Fin.VecNotation
import Mathlib.Data.Rat.Defs
import Mathlib.Algebra.BigOperators.Fin
import Mathlib.Algebra.Order.Ring.Unbundled.Rat
import Mathlib.Tactic.FinCases
import MatchingEngine.StridedLoop

/-! # The volume-weighted average price

The scalar loop and the vectorised one, with `double` read as the rationals. Every element is
read through a test of its index. -/
namespace Vwap

open StridedLoop
open Finset

inductive Fault where
  | outOfBounds (index : ℕ)
  | zeroDivision
  deriving DecidableEq

variable {n : ℕ}

def read (xs : Vector ℚ n) (i : ℕ) : Except Fault ℚ :=
  if h : i < n then .ok xs[i] else .error (.outOfBounds i)

def divide (numerator denominator : ℚ) : Except Fault ℚ :=
  if denominator = 0 then .error .zeroDivision else .ok (numerator / denominator)

/-! ## Four doubles in a register -/

abbrev M256d := Fin 4 → ℚ

/-- `_mm256_setzero_pd` -/
def setzero : M256d := fun _ => 0

/-- `_mm256_loadu_pd(&xs[i])` -/
def loadu (xs : Vector ℚ n) (i : ℕ) : Except Fault M256d := do
  let x₀ ← read xs i
  let x₁ ← read xs (i + 1)
  let x₂ ← read xs (i + 2)
  let x₃ ← read xs (i + 3)
  return ![x₀, x₁, x₂, x₃]

/-- `_mm256_fmadd_pd` -/
def fmadd (a b c : M256d) : M256d := fun l => a l * b l + c l

/-- `_mm256_add_pd` -/
def add (a b : M256d) : M256d := fun l => a l + b l

/-! ## The two versions -/

/-- The body of both scalar loops, on numerator and denominator. -/
def scalarBody (prices qtys : Vector ℚ n) (i : ℕ) (s : ℚ × ℚ) : Except Fault (ℚ × ℚ) := do
  let p ← read prices i
  let q ← read qtys i
  return (s.1 + p * q, s.2 + q)

/-- Numerator and denominator of `vwapScalar`. -/
def scalarSums (prices qtys : Vector ℚ n) : Except Fault (ℚ × ℚ) :=
  loop 0 n 1 (scalarBody prices qtys) (0, 0)

def vwapScalar (prices qtys : Vector ℚ n) : Except Fault ℚ := do
  let (numerator, denominator) ← scalarSums prices qtys
  divide numerator denominator

def simdBody (prices qtys : Vector ℚ n) (i : ℕ) (s : M256d × M256d) :
    Except Fault (M256d × M256d) := do
  let p ← loadu prices i
  let q ← loadu qtys i
  return (fmadd p q s.1, add s.2 q)

/-- Numerator and denominator of `vwapSIMD`. -/
def simdSums (prices qtys : Vector ℚ n) : Except Fault (ℚ × ℚ) := do
  let simdEnd := n - n % 4
  let (numArr, denArr) ← loop 0 simdEnd 4 (simdBody prices qtys) (setzero, setzero)
  let numerator := numArr 0 + numArr 1 + numArr 2 + numArr 3
  let denominator := denArr 0 + denArr 1 + denArr 2 + denArr 3
  loop simdEnd n 1 (scalarBody prices qtys) (numerator, denominator)

def vwapSIMD (prices qtys : Vector ℚ n) : Except Fault ℚ := do
  let (numerator, denominator) ← simdSums prices qtys
  divide numerator denominator

/-! ## Sums -/

/-- The element at an index, and 0 beyond the end. -/
def value (xs : Vector ℚ n) (i : ℕ) : ℚ := if h : i < n then xs[i] else 0

variable {prices qtys : Vector ℚ n} {i : ℕ}

theorem read_ok (xs : Vector ℚ n) (h : i < n) : read xs i = .ok (value xs i) := by
  rw [read, value, dif_pos h, dif_pos h]

theorem loadu_ok (xs : Vector ℚ n) (h : i + 3 < n) :
    loadu xs i = .ok fun l => value xs (i + l.val) := by
  rw [loadu, read_ok xs (by omega), read_ok xs (by omega), read_ok xs (by omega), read_ok xs h]
  change Except.ok _ = Except.ok _
  congr 1
  funext l
  fin_cases l <;> rfl

theorem sum_value (f : ℚ → ℚ → ℚ) (xs ys : Vector ℚ n) :
    ∑ i ∈ range n, f (value xs i) (value ys i) = ∑ i : Fin n, f xs[i] ys[i] := by
  rw [← Fin.sum_univ_eq_sum_range fun i => f (value xs i) (value ys i)]
  apply sum_congr rfl
  intro i _
  simp [value]

/-- Numerator and denominator after the first `k` elements. -/
def sums (prices qtys : Vector ℚ n) (k : ℕ) : ℚ × ℚ :=
  (∑ i ∈ range k, value prices i * value qtys i, ∑ i ∈ range k, value qtys i)

theorem sums_all : sums prices qtys n =
    (∑ i : Fin n, prices[i] * qtys[i], ∑ i : Fin n, qtys[i]) :=
  Prod.ext (sum_value (· * ·) prices qtys) (sum_value (fun _ q => q) prices qtys)

/-- A scalar loop goes on from the sums of what is before it. -/
theorem scalar_loop {start : ℕ} (hstart : start ≤ n) :
    loop start n 1 (scalarBody prices qtys) (sums prices qtys start) =
      .ok (sums prices qtys n) := by
  have hstep : ∀ k < trips start n 1, scalarBody prices qtys (start + 1 * k)
      (sums prices qtys (start + k)) = .ok (sums prices qtys (start + (k + 1))) := by
    intro k hk
    rw [trips_one] at hk
    have hi : start + 1 * k < n := by omega
    rw [scalarBody, read_ok prices hi, read_ok qtys hi, ← Nat.add_assoc, one_mul]
    simp only [sums, sum_range_succ]
    rfl
  have hloop := loop_eq (fun k => sums prices qtys (start + k)) hstep
  rw [trips_one, Nat.add_sub_cancel' hstart] at hloop
  exact hloop

/-- The two accumulators after the first `k` turns. -/
def registers (prices qtys : Vector ℚ n) (k : ℕ) : M256d × M256d :=
  (fun l => lane 4 (fun i => value prices i * value qtys i) k l.val,
    fun l => lane 4 (value qtys) k l.val)

theorem simdBody_registers {k : ℕ} (hk : 4 * k + 3 < n) :
    simdBody prices qtys (4 * k) (registers prices qtys k) =
      .ok (registers prices qtys (k + 1)) := by
  rw [simdBody, loadu_ok prices hk, loadu_ok qtys hk]
  change Except.ok _ = Except.ok _
  congr 1
  refine Prod.ext ?_ ?_
  · funext l
    simp only [registers, fmadd, lane_succ, add_comm]
  · funext l
    simp only [registers, add, lane_succ]

theorem simd_loop {m : ℕ} (hm : 4 * m ≤ n) :
    loop 0 (4 * m) 4 (simdBody prices qtys) (setzero, setzero) =
      .ok (registers prices qtys m) := by
  have hstep : ∀ k < trips 0 (4 * m) 4, simdBody prices qtys (0 + 4 * k)
      (registers prices qtys k) = .ok (registers prices qtys (k + 1)) := by
    intro k hk
    rw [trips_mul 4 m (by omega)] at hk
    rw [Nat.zero_add]
    exact simdBody_registers (by omega)
  have hloop := loop_eq (registers prices qtys) hstep
  rw [trips_mul 4 m (by omega)] at hloop
  exact hloop

theorem sum_four (f : ℕ → ℚ) (m : ℕ) :
    lane 4 f m 0 + lane 4 f m 1 + lane 4 f m 2 + lane 4 f m 3 = ∑ i ∈ range (4 * m), f i := by
  rw [← sum_lanes]
  simp [sum_range_succ]

theorem scalarSums_eq : scalarSums prices qtys = .ok (sums prices qtys n) :=
  scalar_loop (Nat.zero_le n)

theorem simdSums_eq : simdSums prices qtys = .ok (sums prices qtys n) := by
  obtain ⟨m, hm⟩ : 4 ∣ n - n % 4 := Nat.dvd_sub_mod n
  rw [simdSums, hm, simd_loop (by omega)]
  have htail : loop (4 * m) n 1 (scalarBody prices qtys) (sums prices qtys (4 * m)) = _ :=
    scalar_loop (by omega)
  rw [sums, ← sum_four, ← sum_four] at htail
  exact htail

/-- Whatever the length, both versions read within the vectors and add up the same two sums. -/
theorem vwapSIMD_eq_vwapScalar (prices qtys : Vector ℚ n) :
    ∃ numerator denominator,
      scalarSums prices qtys = .ok (numerator, denominator) ∧
      simdSums prices qtys = .ok (numerator, denominator) ∧
      numerator = ∑ i : Fin n, prices[i] * qtys[i] ∧ denominator = ∑ i : Fin n, qtys[i] ∧
      vwapSIMD prices qtys = vwapScalar prices qtys ∧
      (denominator ≠ 0 → vwapScalar prices qtys = .ok (numerator / denominator)) := by
  have hall : sums prices qtys n = _ := sums_all
  refine ⟨_, _, hall ▸ scalarSums_eq, hall ▸ simdSums_eq, rfl, rfl, ?_, ?_⟩
  · rw [vwapSIMD, vwapScalar, simdSums_eq, scalarSums_eq]
  · intro hne
    rw [vwapScalar, scalarSums_eq, hall]
    exact if_neg hne

example : vwapSIMD #v[100, 101, 99, 100, 102] #v[1, 2, 1, 3, 5] = .ok (1211 / 12) := by
  decide +kernel

end Vwap
