/-
The convergence of Smith's method. No step of the method looks at how far the result still is from the
solution; where the squared Frobenius norm of `A` is below one, that distance is known beforehand.
-/
import Lyapunov.Proofs.Equation.Convergence
import Lyapunov.Proofs.Solver.Kronecker

open Kronecker

namespace Lyapunov.Smith

open Lyapunov.Dense Matrix

variable {K : Type} [ExactScalar K]

/-- The results of all settings come close to `P` at the rate `r`. -/
structure ConvergesTo (φ : K →+* ℝ) (r : ℝ) {n : Nat} (P : Matrix (Fin n) (Fin n) K)
    (result : Settings → Matrix (Fin n) (Fin n) K) : Prop where
  plain_le : ∀ k, frobeniusNorm φ (result ⟨k, false⟩ - P) ≤ r ^ (k + 1) * frobeniusNorm φ P
  doubling_le : ∀ k, frobeniusNorm φ (result ⟨k, true⟩ - P) ≤ r ^ 2 ^ k * frobeniusNorm φ P
  step_le : ∀ k, frobeniusNorm φ (result ⟨k + 2, false⟩ - result ⟨k + 1, false⟩) ≤
    r * frobeniusNorm φ (result ⟨k + 1, false⟩ - result ⟨k, false⟩)

/-- The truncated series come close to a solution. -/
theorem convergesTo_partialSum (φ : K →+* ℝ) {n : Nat} {A W P : Matrix (Fin n) (Fin n) K}
    (hP : P = A * P * Aᵀ + W) :
    ConvergesTo φ (frobeniusNorm φ A ^ 2) P fun settings => partialSum A W settings.terms where
  plain_le k := frobeniusNorm_partialSum_sub_le φ hP (k + 1)
  doubling_le k := frobeniusNorm_partialSum_sub_le φ hP (2 ^ k)
  step_le k := frobeniusNorm_partialSum_succ_sub_le φ A W (k + 1)

/-- For a matrix whose squared Frobenius norm `r` is below one the direct method succeeds with some `P`.
Smith's method is then within `r ^ (k + 1)` times the norm of `P` of it after `k` steps, within `r ^ 2 ^ k`
times that norm with doubling, and without doubling each step is at most `r` times as large as the one
before. -/
theorem converges_of_frobeniusNorm_lt_one (φ : K →+* ℝ) {n : Nat} (hn : 0 < n) (name : String) (s : Nat)
    (names : Settings → String) (starts : Settings → Nat) :
    ∃ (f : Func K) (s' : Nat) (g : Settings → Func K) (ends : Settings → Nat),
      Kronecker.IsDleFunction (.square n) name s f s' ∧
      (∀ settings, IsDleFunction n settings (names settings) (starts settings) (g settings) (ends settings)) ∧
      ∀ (A V : Matrix (Fin n) (Fin n) K) (args : List (Argument K)),
        args.map (·.toDense) = [ofMatrix A, ofMatrix V] → frobeniusNorm φ A ^ 2 < 1 →
          (1 - A ⊗ₖ A).det ≠ 0 ∧
          ∃ (P : Matrix (Fin n) (Fin n) K) (result : Settings → Matrix (Fin n) (Fin n) K),
            f.eval args = .ok [ofMatrix P] ∧ P = A * P * Aᵀ + symmetricPart K V ∧
            (∀ settings, (g settings).eval args = .ok [ofMatrix (result settings)]) ∧
            ConvergesTo φ (frobeniusNorm φ A ^ 2) P result := by
  obtain ⟨f, s', hf⟩ := Kronecker.exists_isFunction_dle (K := K) hn name s
  choose g ends hg using fun settings : Settings =>
    exists_isFunction_dle (K := K) n settings (names settings) (starts settings)
  refine ⟨f, s', g, ends, Kronecker.isDleFunction_of hf, fun settings => isDleFunction_of (hg settings),
    fun A V args hargs hA => ?_⟩
  have hdet := det_ne_zero_of_frobeniusNorm φ hA
  obtain ⟨P, hP, -⟩ := existsUnique_solution hdet.isUnit (symmetricPart K V)
  exact ⟨hdet, P, _, Kronecker.eval_dle hf hargs hn hdet hP, hP, fun settings => eval_dle (hg settings) hargs,
    convergesTo_partialSum φ hP⟩

/-- For a number whose square is a quarter. -/
theorem converges_one_half :
    frobeniusNorm (Rat.castHom ℝ) (!![1 / 2] : Matrix (Fin 1) (Fin 1) ℚ) ^ 2 = 1 / 4 ∧
    ∃ (f : Func ℚ) (s' : Nat) (g : Settings → Func ℚ) (ends : Settings → Nat)
      (result : Settings → Matrix (Fin 1) (Fin 1) ℚ),
      Kronecker.IsDleFunction (.square 1) "f" 0 f s' ∧
      (∀ settings, IsDleFunction 1 settings "g" 0 (g settings) (ends settings)) ∧
      f.eval [.scalar (1 / 2), .scalar 3] = .ok [.ofScalar 4] ∧
      (∀ settings, (g settings).eval [.scalar (1 / 2), .scalar 3] = .ok [ofMatrix (result settings)]) ∧
      ConvergesTo (Rat.castHom ℝ) (1 / 4) !![4] result := by
  have hnorm : frobeniusNorm (Rat.castHom ℝ) (!![1 / 2] : Matrix (Fin 1) (Fin 1) ℚ) ^ 2 = 1 / 4 := by
    rw [frobeniusNorm_eq_sqrt, Real.sq_sqrt (Finset.sum_nonneg fun _ _ => Finset.sum_nonneg fun _ _ => sq_nonneg _),
      Fintype.sum_subsingleton _ 0, Fintype.sum_subsingleton _ 0]
    show ((1 / 2 : ℚ) : ℝ) ^ 2 = 1 / 4
    norm_num
  obtain ⟨f, s', g, ends, hf, hg, hconverges⟩ :=
    converges_of_frobeniusNorm_lt_one (Rat.castHom ℝ) Nat.one_pos "f" 0 (fun _ => "g") fun _ => 0
  obtain ⟨-, P, result, hvalue, hP, hresult, hclose⟩ := hconverges !![1 / 2] !![3]
    [.scalar (1 / 2), .scalar 3]
    (congrArg₂ (fun a v => [a, v]) (ofScalar_eq_ofMatrix _) (ofScalar_eq_ofMatrix _))
    (by rw [hnorm]; norm_num)
  have hfour : P = !![4] := by
    have hdet : (1 - !![1 / 2] ⊗ₖ !![1 / 2] : Matrix (Fin 1 × Fin 1) (Fin 1 × Fin 1) ℚ).det ≠ 0 := by
      decide +kernel
    exact (existsUnique_solution hdet.isUnit (symmetricPart ℚ !![3])).unique hP (by decide +kernel)
  subst hfour
  refine ⟨hnorm, f, s', g, ends, result, hf, hg, ?_, hresult, hnorm ▸ hclose⟩
  rw [hvalue, ofScalar_eq_ofMatrix]

end Lyapunov.Smith
