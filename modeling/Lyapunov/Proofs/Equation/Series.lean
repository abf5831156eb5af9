/-
The series for the discrete Lyapunov equation. The sum of the first `k` of the terms `A^i W (A^i)'`
arises from the one before by `P := A P A' + W`, and sums of many terms arise from sums of few; what is
left of a solution `P` after `k` terms is `A^k P (A^k)'`. Nothing is assumed of the size of `A`.
-/
import Mathlib.Algebra.Algebra.Basic
import Mathlib.Algebra.BigOperators.Intervals
import Mathlib.Algebra.Field.Basic
import Mathlib.Data.Matrix.Mul

namespace Lyapunov

open Finset Matrix

variable {R : Type} [CommRing R] {m n : Nat}

/-! ## Symmetric parts -/

section SymmetricPart

variable (K : Type) [Field K] [Algebra K R]

/-- `(V + V') / 2`, where entries may be divided by numbers of the field `K`. -/
def symmetricPart (V : Matrix (Fin n) (Fin n) R) : Matrix (Fin n) (Fin n) R := (2⁻¹ : K) • (V + Vᵀ)

theorem transpose_symmetricPart (V : Matrix (Fin n) (Fin n) R) :
    (symmetricPart K V)ᵀ = symmetricPart K V := by
  rw [symmetricPart, transpose_smul, transpose_add, transpose_transpose, add_comm]

theorem symmetricPart_congruence (C : Matrix (Fin m) (Fin n) R) (V : Matrix (Fin n) (Fin n) R) :
    symmetricPart K (C * V * Cᵀ) = C * symmetricPart K V * Cᵀ := by
  simp only [symmetricPart, transpose_mul, transpose_transpose, Matrix.mul_smul, Matrix.smul_mul,
    Matrix.mul_add, Matrix.add_mul, Matrix.mul_assoc]

theorem symmetricPart_add (V W : Matrix (Fin n) (Fin n) R) :
    symmetricPart K (V + W) = symmetricPart K V + symmetricPart K W := by
  rw [symmetricPart, symmetricPart, symmetricPart, transpose_add, ← smul_add, add_add_add_comm]

theorem symmetricPart_symmetricPart (V : Matrix (Fin n) (Fin n) R) :
    symmetricPart K (symmetricPart K V) = symmetricPart K V := by
  rw [symmetricPart, transpose_symmetricPart, ← two_smul K, smul_smul]
  by_cases h : (2 : K) = 0
  · -- the symmetric part is zero in characteristic two
    rw [symmetricPart, inv_eq_zero.2 h, zero_mul, zero_smul, zero_smul]
  · rw [inv_mul_cancel₀ h, one_smul]

end SymmetricPart

/-! ## Partial sums -/

variable (A W : Matrix (Fin n) (Fin n) R)

/-- The sum of the first `k` terms of the series. -/
def partialSum (k : Nat) : Matrix (Fin n) (Fin n) R := ∑ i ∈ range k, A ^ i * W * (A ^ i)ᵀ

@[simp] theorem partialSum_zero : partialSum A W 0 = 0 := rfl

@[simp] theorem partialSum_one : partialSum A W 1 = W := by
  rw [partialSum, sum_range_one, pow_zero, transpose_one, one_mul, mul_one]

theorem partialSum_succ (k : Nat) :
    partialSum A W (k + 1) = partialSum A W k + A ^ k * W * (A ^ k)ᵀ := sum_range_succ _ k

/-- The first terms, and the others with a power of `A` on either side. -/
theorem partialSum_add (j k : Nat) :
    partialSum A W (j + k) = partialSum A W j + A ^ j * partialSum A W k * (A ^ j)ᵀ := by
  rw [partialSum, sum_range_add, partialSum, partialSum, Matrix.mul_sum, Matrix.sum_mul]
  refine congrArg (_ + ·) (sum_congr rfl fun i _ => ?_)
  rw [pow_add, transpose_mul]
  simp only [Matrix.mul_assoc]

/-- One step of the iteration adds a term. -/
theorem congruence_partialSum_add (k : Nat) :
    A * partialSum A W k * Aᵀ + W = partialSum A W (k + 1) := by
  rw [Nat.add_comm, partialSum_add, partialSum_one, pow_one, add_comm]

/-- The terms after the first one are those of the series for `A W A'`. -/
theorem partialSum_congruence (k : Nat) :
    partialSum A (A * W * Aᵀ) k = A * partialSum A W k * Aᵀ := by
  rw [partialSum, partialSum, Matrix.mul_sum, Matrix.sum_mul]
  refine sum_congr rfl fun i _ => ?_
  calc A ^ i * (A * W * Aᵀ) * (A ^ i)ᵀ
      = A ^ i * A * W * (A ^ i * A)ᵀ := by rw [transpose_mul]; simp only [Matrix.mul_assoc]
    _ = A * (A ^ i * W * (A ^ i)ᵀ) * Aᵀ := by
        rw [← pow_succ, pow_succ', transpose_mul]; simp only [Matrix.mul_assoc]

/-- One step with doubling adds as many terms as there are. -/
theorem congruence_pow_partialSum_add (k : Nat) :
    A ^ k * partialSum A W k * (A ^ k)ᵀ + partialSum A W k = partialSum A W (k * 2) := by
  rw [Nat.mul_two, partialSum_add, add_comm]

/-- What a solution exceeds the sum of the first terms by. -/
theorem sub_partialSum {P : Matrix (Fin n) (Fin n) R} (hP : P = A * P * Aᵀ + W) (k : Nat) :
    P - partialSum A W k = A ^ k * P * (A ^ k)ᵀ := by
  induction k with
  | zero => rw [partialSum_zero, sub_zero, pow_zero, transpose_one, one_mul, mul_one]
  | succ k ih =>
    calc P - partialSum A W (k + 1)
        = A ^ k * (A * P * Aᵀ + W) * (A ^ k)ᵀ - A ^ k * W * (A ^ k)ᵀ := by
          rw [partialSum_succ, ← sub_sub, ih, ← hP]
      _ = A ^ (k + 1) * P * (A ^ (k + 1))ᵀ := by
          rw [Matrix.mul_add, Matrix.add_mul, add_sub_cancel_right, pow_succ, transpose_mul]
          simp only [Matrix.mul_assoc]

end Lyapunov
