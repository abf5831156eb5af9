/-
Exact arithmetic: scalars that form a field, with tests that decide equality. Of the comparison of
magnitudes only zero matters, which no number is below and every other number is above; so a pivot
of largest magnitude is zero only in a column of zeros. The rationals are such scalars.
-/
import Mathlib.Algebra.BigOperators.Intervals
import Mathlib.Algebra.Field.Rat
import Mathlib.Algebra.Order.Field.Rat
import Mathlib.Algebra.Order.AbsoluteValue.Basic
import Lyapunov.Scalar

namespace Lyapunov

open Finset

/-- Scalars with exact arithmetic. -/
class ExactScalar (K : Type) extends Field K, Scalar K where
  beq_iff : ∀ x y : K, (x == y) = true ↔ x = y
  not_absLt_zero : ∀ x : K, absLt x 0 = false
  zero_absLt : ∀ x : K, absLt 0 x = true ↔ x ≠ 0

instance : ExactScalar ℚ where
  absLt x y := decide (|x| < |y|)
  beq_iff x y := beq_iff_eq
  not_absLt_zero x := by simp
  zero_absLt x := by simp

theorem Scalar.beq_iff {K : Type} [ExactScalar K] (x y : K) : (x == y) = true ↔ x = y :=
  ExactScalar.beq_iff x y

theorem Scalar.not_absLt_zero {K : Type} [ExactScalar K] (x : K) : Scalar.absLt x 0 = false :=
  ExactScalar.not_absLt_zero x

theorem Scalar.zero_absLt {K : Type} [ExactScalar K] (x : K) : Scalar.absLt 0 x = true ↔ x ≠ 0 :=
  ExactScalar.zero_absLt x

/-- A sum in increasing order of the index is the sum. -/
theorem sumBelow_eq_sum {R : Type} [AddCommMonoid R] (n : Nat) (f : Nat → R) :
    sumBelow n f = ∑ k ∈ range n, f k := by
  induction n with
  | zero => rfl
  | succ n ih => rw [sumBelow_succ, sum_range_succ, ih]

/-- An index below a product is a row of blocks and a row in its block. -/
theorem sum_range_mul {R : Type} [AddCommMonoid R] (m p : Nat) (f : Nat → R) :
    ∑ i ∈ range (m * p), f i = ∑ a ∈ range m, ∑ k ∈ range p, f (a * p + k) := by
  induction m with
  | zero => simp
  | succ m ih => rw [Nat.succ_mul, sum_range_add, ih, sum_range_succ]

end Lyapunov
