import Mathlib.Algebra.Group.Int.Defs
import Mathlib.Algebra.Group.Nat.Defs
import Mathlib.Order.Lattice

/-! # Types, orders and the order factory

Ids are `std::uint64_t`, quantities are `int`, prices are `double` by bit pattern.
A steady-clock reading is stored in orders and trades and read by nothing, so neither
carries one. -/
namespace EngineTypes

abbrev OrderId := UInt64
abbrev TraderId := UInt64

inductive Side where
  | buy
  | sell
  deriving DecidableEq, Repr

def Side.opposite : Side → Side
  | .buy => .sell
  | .sell => .buy

inductive OrderKind where
  | market
  | limit
  deriving DecidableEq, Repr

inductive CommandType where
  | submit
  | cancel
  deriving DecidableEq, Repr

inductive OrderStatus where
  | new
  | opened
  | partiallyFilled
  | filled
  | cancelled
  deriving DecidableEq, Repr

/-- What a call leaves with when it does not return: an exception with its text,
or behaviour that C++ leaves undefined. -/
inductive Undefined where
  | danglingOrder
  | emptyFront
  | missingLevel
  | danglingIterator
  | signedOverflow
  | endlessLoop
  deriving DecidableEq, Repr

inductive Failure where
  | invalidArgument (what : String)
  | logicError (what : String)
  | undefined (what : Undefined)
  deriving DecidableEq, Repr

/-! ## Doubles -/

/-- An IEEE 754 binary64 value, by its bit pattern. -/
structure Double where
  bits : UInt64
  deriving DecidableEq, Repr

namespace Double

def zero : Double := ⟨0⟩

def negative (x : Double) : Bool := 2 ^ 63 ≤ x.bits.toNat

/-- Exponent and fraction fields together; they order the doubles of one sign. -/
def magnitude (x : Double) : ℕ := x.bits.toNat % 2 ^ 63

def exponent (x : Double) : ℕ := x.magnitude / 2 ^ 52

def isFinite (x : Double) : Bool := x.exponent < 2047

def isNaN (x : Double) : Bool := 2047 * 2 ^ 52 < x.magnitude

/-- Place on the number line. Both zeros stand at 0. -/
def rank (x : Double) : ℤ := if x.negative then -(x.magnitude : ℤ) else x.magnitude

/-- A comparison with a NaN is false. -/
def lt (x y : Double) : Bool := !x.isNaN && !y.isNaN && x.rank < y.rank

def le (x y : Double) : Bool := !x.isNaN && !y.isNaN && x.rank ≤ y.rank

end Double

/-- A price that `LimitOrder` accepts. -/
structure LimitPrice where
  val : Double
  finite : val.isFinite = true
  positive : Double.le val Double.zero = false
  deriving DecidableEq

namespace LimitPrice

theorem ext_bits {p q : LimitPrice} (h : p.val.bits = q.val.bits) : p = q := by
  obtain ⟨⟨a⟩, _, _⟩ := p
  obtain ⟨⟨b⟩, _, _⟩ := q
  cases h
  rfl

theorem not_nan (p : LimitPrice) : p.val.isNaN = false := by
  have h : p.val.magnitude / 2 ^ 52 < 2047 := of_decide_eq_true p.finite
  have : ¬ 2047 * 2 ^ 52 < p.val.magnitude := by omega
  exact decide_eq_false this

theorem rank_pos (p : LimitPrice) : 0 < p.val.rank := by
  have h := p.positive
  have hz : Double.zero.isNaN = false := by decide
  have hr : Double.zero.rank = 0 := by decide
  simp only [Double.le, p.not_nan, hz, hr, Bool.not_false, Bool.true_and,
    decide_eq_false_iff_not] at h
  omega

theorem rank_eq_bits (p : LimitPrice) : p.val.rank = p.val.bits.toNat := by
  have h := p.rank_pos
  have hb := p.val.bits.toNat_lt
  unfold Double.rank at h ⊢
  split at h
  · omega
  · rename_i hs
    rw [if_neg hs]
    simp only [Double.negative, decide_eq_true_eq] at hs
    simp only [Double.magnitude]
    omega

theorem bits_injective : Function.Injective fun p : LimitPrice => p.val.bits.toNat :=
  fun _ _ h => ext_bits (UInt64.toNat_inj.mp h)

instance : LinearOrder LimitPrice := LinearOrder.lift' _ bits_injective

theorem le_iff_double_le (p q : LimitPrice) : p ≤ q ↔ Double.le p.val q.val = true := by
  have h : p ≤ q ↔ p.val.bits.toNat ≤ q.val.bits.toNat := Iff.rfl
  simp only [h, Double.le, p.not_nan, q.not_nan, p.rank_eq_bits, q.rank_eq_bits,
    Bool.not_false, Bool.true_and, decide_eq_true_eq, Int.ofNat_le]

theorem lt_iff_double_lt (p q : LimitPrice) : p < q ↔ Double.lt p.val q.val = true := by
  have h : p < q ↔ p.val.bits.toNat < q.val.bits.toNat := Iff.rfl
  simp only [h, Double.lt, p.not_nan, q.not_nan, p.rank_eq_bits, q.rank_eq_bits,
    Bool.not_false, Bool.true_and, decide_eq_true_eq, Int.ofNat_lt]

/-- 100.0 -/
def hundred : LimitPrice := ⟨⟨0x4059000000000000⟩, by decide, by decide⟩

end LimitPrice

end EngineTypes
