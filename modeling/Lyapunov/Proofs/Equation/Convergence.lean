/-
Contractions. Where the squared Frobenius norm `r` of `A` is below one the map `X ↦ A X A'` shrinks every
matrix by the factor `r`, so the equation has one solution, the sum of `k` terms of the series is within
`r ^ k` times the norm of the solution of it, and successive sums approach each other by the factor `r`.
-/
import Mathlib.Analysis.Matrix.Normed
import Lyapunov.Proofs.Equation.Series
import Lyapunov.Proofs.Equation.System

open Kronecker

namespace Lyapunov

open Matrix
open scoped Matrix.Norms.Frobenius

variable {K : Type} [Field K] (φ : K →+* ℝ) {n : Nat}

/-- The square root of the sum of the squares of the entries, which `φ` reads as real numbers. -/
noncomputable def frobeniusNorm (X : Matrix (Fin n) (Fin n) K) : ℝ := ‖X.map φ‖

theorem frobeniusNorm_eq_sqrt (X : Matrix (Fin n) (Fin n) K) :
    frobeniusNorm φ X = √(∑ i, ∑ j, φ (X i j) ^ 2) := by
  rw [frobeniusNorm, frobenius_norm_def, Real.sqrt_eq_rpow]
  simp only [map_apply, Real.norm_eq_abs, Real.rpow_two, sq_abs]

theorem frobeniusNorm_nonneg (X : Matrix (Fin n) (Fin n) K) : 0 ≤ frobeniusNorm φ X := norm_nonneg _

theorem frobeniusNorm_neg (X : Matrix (Fin n) (Fin n) K) : frobeniusNorm φ (-X) = frobeniusNorm φ X := by
  rw [frobeniusNorm, Matrix.map_neg φ (map_neg φ), norm_neg, frobeniusNorm]

theorem eq_zero_of_frobeniusNorm {X : Matrix (Fin n) (Fin n) K} (h : frobeniusNorm φ X = 0) : X = 0 := by
  have hmap : X.map φ = (0 : Matrix (Fin n) (Fin n) K).map φ := by
    rw [norm_eq_zero.1 h, Matrix.map_zero φ (map_zero φ)]
  exact map_injective φ.injective hmap

/-! ## Congruences -/

variable {A W P X : Matrix (Fin n) (Fin n) K}

theorem frobeniusNorm_congruence_le (A X : Matrix (Fin n) (Fin n) K) :
    frobeniusNorm φ (A * X * Aᵀ) ≤ frobeniusNorm φ A ^ 2 * frobeniusNorm φ X := by
  have hmap : (A * X * Aᵀ).map φ = A.map φ * X.map φ * (A.map φ)ᵀ := by
    rw [Matrix.map_mul, Matrix.map_mul, transpose_map]
  unfold frobeniusNorm
  calc ‖(A * X * Aᵀ).map φ‖ = ‖A.map φ * X.map φ * (A.map φ)ᵀ‖ := congrArg _ hmap
    _ ≤ ‖A.map φ * X.map φ‖ * ‖A.map φ‖ := by
        rw [← frobenius_norm_transpose (A.map φ)]
        exact frobenius_norm_mul _ _
    _ ≤ ‖A.map φ‖ * ‖X.map φ‖ * ‖A.map φ‖ := by
        gcongr
        exact frobenius_norm_mul _ _
    _ = ‖A.map φ‖ ^ 2 * ‖X.map φ‖ := by ring

/-- Every further power of `A` on either side brings in the factor once more. -/
theorem frobeniusNorm_pow_congruence_le (A X : Matrix (Fin n) (Fin n) K) (k : Nat) :
    frobeniusNorm φ (A ^ k * X * (A ^ k)ᵀ) ≤ (frobeniusNorm φ A ^ 2) ^ k * frobeniusNorm φ X := by
  induction k with
  | zero => rw [pow_zero, pow_zero, transpose_one, Matrix.one_mul, Matrix.mul_one, one_mul]
  | succ k ih =>
    have hsplit : A ^ (k + 1) * X * (A ^ (k + 1))ᵀ = A * (A ^ k * X * (A ^ k)ᵀ) * Aᵀ := by
      rw [pow_succ', transpose_mul]
      simp only [Matrix.mul_assoc]
    calc frobeniusNorm φ (A ^ (k + 1) * X * (A ^ (k + 1))ᵀ)
        ≤ frobeniusNorm φ A ^ 2 * frobeniusNorm φ (A ^ k * X * (A ^ k)ᵀ) := by
          rw [hsplit]
          exact frobeniusNorm_congruence_le φ A _
      _ ≤ frobeniusNorm φ A ^ 2 * ((frobeniusNorm φ A ^ 2) ^ k * frobeniusNorm φ X) := by gcongr
      _ = (frobeniusNorm φ A ^ 2) ^ (k + 1) * frobeniusNorm φ X := by ring

/-! ## The solution -/

/-- A contraction leaves no matrix as it is but zero. -/
theorem eq_zero_of_eq_congruence (hA : frobeniusNorm φ A ^ 2 < 1) (hX : X = A * X * Aᵀ) : X = 0 := by
  have hle : frobeniusNorm φ X ≤ frobeniusNorm φ A ^ 2 * frobeniusNorm φ X := by
    have := frobeniusNorm_congruence_le φ A X
    rwa [← hX] at this
  refine eq_zero_of_frobeniusNorm φ (le_antisymm ?_ (frobeniusNorm_nonneg φ X))
  by_contra hpos
  have hlt := mul_lt_mul_of_pos_right hA (not_le.1 hpos)
  linarith

/-- So the linear system of the equation is not singular. -/
theorem det_ne_zero_of_frobeniusNorm (hA : frobeniusNorm φ A ^ 2 < 1) : (1 - A ⊗ₖ A).det ≠ 0 := by
  intro hsingular
  obtain ⟨X, hX, hfixed⟩ := det_eq_zero_iff.1 hsingular
  exact hX (eq_zero_of_eq_congruence φ hA hfixed)

/-! ## Partial sums -/

/-- How far the sum of the first terms is from a solution. -/
theorem frobeniusNorm_partialSum_sub_le (hP : P = A * P * Aᵀ + W) (k : Nat) :
    frobeniusNorm φ (partialSum A W k - P) ≤ (frobeniusNorm φ A ^ 2) ^ k * frobeniusNorm φ P := by
  rw [← neg_sub, frobeniusNorm_neg, sub_partialSum A W hP]
  exact frobeniusNorm_pow_congruence_le φ A P k

/-- One step and the step before it. -/
theorem partialSum_succ_sub (A W : Matrix (Fin n) (Fin n) K) (k : Nat) :
    partialSum A W (k + 2) - partialSum A W (k + 1) =
      A * (partialSum A W (k + 1) - partialSum A W k) * Aᵀ := by
  rw [Matrix.mul_sub, Matrix.sub_mul, ← congruence_partialSum_add A W (k + 1),
    ← congruence_partialSum_add A W k, add_sub_add_right_eq_sub]

theorem frobeniusNorm_partialSum_succ_sub_le (A W : Matrix (Fin n) (Fin n) K) (k : Nat) :
    frobeniusNorm φ (partialSum A W (k + 2) - partialSum A W (k + 1)) ≤
      frobeniusNorm φ A ^ 2 * frobeniusNorm φ (partialSum A W (k + 1) - partialSum A W k) := by
  rw [partialSum_succ_sub]
  exact frobeniusNorm_congruence_le φ A _

end Lyapunov
