/-
What Smith's method gives for a semidefinite `V` is semidefinite, and grows with the number of steps. This
holds for both classes of equations and for all data, whether the series converges or not.
-/
import Mathlib.Algebra.Order.Ring.Rat
import Lyapunov.Proofs.Equation.Definite
import Lyapunov.Proofs.Solver.Smith

namespace Lyapunov.Smith

open Lyapunov.Dense Matrix

variable {K : Type} [ExactScalar K] [LinearOrder K] [IsStrictOrderedRing K]

/-- Results of one shape that are semidefinite, and each exceeds the one before by a semidefinite matrix. -/
structure GrowsDefinitely (s : Shape) (result : Nat → Dense K) : Prop where
  shape : ∀ k, (result k).shape = s
  semidefinite : ∀ k, (result k).Semidefinite
  grows : ∀ k, ((result (k + 1)).add (result k).neg).Semidefinite

/-- More steps sum no fewer terms. -/
theorem Settings.terms_le (k : Nat) (doubling : Bool) :
    Settings.terms ⟨k, doubling⟩ ≤ Settings.terms ⟨k + 1, doubling⟩ := by
  cases doubling with
  | false => exact Nat.le_succ (k + 1)
  | true => exact Nat.pow_le_pow_right Nat.two_pos (Nat.le_succ k)

/-- The sums of more and more terms of the series. -/
theorem growsDefinitely_partialSum {n : Nat} {A W : Matrix (Fin n) (Fin n) K} (hW : Lyapunov.Semidefinite W)
    (doubling : Bool) :
    GrowsDefinitely (.square n) fun k => ofMatrix (partialSum A W (Settings.terms ⟨k, doubling⟩)) where
  shape _ := rfl
  semidefinite k := semidefinite_ofMatrix.2 (hW.partialSum A _)
  grows k := by
    rw [sub_ofMatrix, semidefinite_ofMatrix]
    exact hW.partialSum_sub A (Settings.terms_le k doubling)

/-- The answers for them. -/
theorem growsDefinitely_answer {e : LowRankDle} (he : e.Valid) (d : LowRankDle.Data K e)
    (hW : Lyapunov.Semidefinite (d.rhs K)) :
    GrowsDefinitely e.outputShape fun k => d.answer (partialSum d.matrix (d.rhs K) k) where
  shape k := he.shape_answer d _
  semidefinite k := LowRankDle.semidefinite_answer (hW.partialSum d.matrix k) d.h e.blockWidths
  grows k := by
    have hsub := LowRankDle.answer_sub d.h e.blockWidths (partialSum d.matrix (d.rhs K) (k + 1))
      (partialSum d.matrix (d.rhs K) k)
    unfold LowRankDle.Data.answer
    rw [hsub]
    exact LowRankDle.semidefinite_answer (hW.partialSum_sub d.matrix (Nat.le_succ k)) d.h e.blockWidths

/-- For every accepted equation of either class, and all data with a semidefinite `V`, the results for
`0, 1, 2, …` steps or terms are semidefinite and grow. -/
theorem growsDefinitely_eval :
    (∀ e : Dle, e.validate = .ok () → ∀ (names : Settings → String) (starts : Settings → Nat),
      ∃ (g : Settings → Func K) (ends : Settings → Nat),
        (∀ settings, IsDleFunction e.a.rows settings (names settings) (starts settings) (g settings)
          (ends settings)) ∧
        ∀ (A V : Matrix (Fin e.a.rows) (Fin e.a.rows) K) (args : List (Argument K)),
          args.map (·.toDense) = [ofMatrix A, ofMatrix V] → (ofMatrix V).Semidefinite →
            ∃ result : Settings → Dense K, (∀ settings, (g settings).eval args = .ok [result settings]) ∧
              ∀ doubling, GrowsDefinitely (.square e.a.rows) fun k => result ⟨k, doubling⟩) ∧
    (∀ e : LowRankDle, e.validate = .ok () → ∀ (names : Nat → String) (starts : Nat → Nat),
      ∃ (g : Nat → Func K) (ends : Nat → Nat),
        (∀ k, IsLowRankFunction e k (names k) (starts k) (g k) (ends k)) ∧
        ∀ (d : LowRankDle.Data K e) (args : List (Argument K)),
          args.map (·.toDense) = d.matrices → d.v.Semidefinite →
            ∃ result : Nat → Dense K, (∀ k, (g k).eval args = .ok [result k]) ∧
              GrowsDefinitely e.outputShape result) := by
  refine ⟨fun e _ names starts => ?_, fun e he names starts => ?_⟩
  · choose g ends hg using fun settings : Settings =>
      exists_isFunction_dle (K := K) e.a.rows settings (names settings) (starts settings)
    refine ⟨g, ends, fun settings => isDleFunction_of (hg settings), fun A V args hargs hV => ?_⟩
    exact ⟨_, fun settings => eval_dle (hg settings) hargs,
      growsDefinitely_partialSum (semidefinite_ofMatrix.1 hV).symmetricPart⟩
  · have he := LowRankDle.validate_eq_ok.1 he
    choose g ends hg using fun k => exists_isFunction_lowRank (K := K) he k (names k) (starts k)
    refine ⟨g, ends, fun k => isLowRankFunction_of (hg k), fun d args hargs hv => ?_⟩
    exact ⟨_, fun k => eval_lowRank (hg k) he hargs, growsDefinitely_answer he d (he.semidefinite_rhs d hv)⟩

/-- Numbers, and an answer with two blocks. -/
theorem growsDefinitely_numbers : (Dle.square 1).validate = .ok () ∧ LowRankDle.twoBlocks.validate = .ok () ∧
    (ofMatrix !![(3 : ℚ)]).Semidefinite ∧ LowRankDle.twoBlocksData.v.Semidefinite ∧
    (∃ (g : Settings → Func ℚ) (ends : Settings → Nat) (result : Settings → Dense ℚ),
      (∀ settings, IsDleFunction 1 settings "g" 0 (g settings) (ends settings)) ∧
      (∀ settings, (g settings).eval [.scalar 2, .scalar 3] = .ok [result settings]) ∧
      ∀ doubling, GrowsDefinitely (.square 1) fun k => result ⟨k, doubling⟩) ∧
    ∃ (g : Nat → Func ℚ) (ends : Nat → Nat) (result : Nat → Dense ℚ),
      (∀ k, IsLowRankFunction LowRankDle.twoBlocks k "g" 0 (g k) (ends k)) ∧
      (∀ k, (g k).eval (LowRankDle.twoBlocksData.matrices.map .dense) = .ok [result k]) ∧
      GrowsDefinitely LowRankDle.twoBlocks.outputShape result := by
  have hthree : (ofMatrix !![(3 : ℚ)]).Semidefinite := by
    rw [← ofScalar_eq_ofMatrix]
    exact semidefinite_ofScalar (by decide)
  have htwo : LowRankDle.twoBlocksData.v.Semidefinite := semidefinite_ofScalar (by decide)
  obtain ⟨hdle, hlowRank⟩ := growsDefinitely_eval (K := ℚ)
  refine ⟨rfl, rfl, hthree, htwo, ?_, ?_⟩
  · obtain ⟨g, ends, hg, hgrows⟩ := hdle (.square 1) rfl (fun _ => "g") fun _ => 0
    obtain ⟨result, heval, hresult⟩ := hgrows !![2] !![3] [.scalar 2, .scalar 3]
      (congrArg₂ (fun a v => [a, v]) (ofScalar_eq_ofMatrix 2) (ofScalar_eq_ofMatrix 3)) hthree
    exact ⟨g, ends, result, hg, heval, hresult⟩
  · obtain ⟨g, ends, hg, hgrows⟩ := hlowRank .twoBlocks rfl (fun _ => "g") fun _ => 0
    obtain ⟨result, heval, hresult⟩ := hgrows LowRankDle.twoBlocksData
      (LowRankDle.twoBlocksData.matrices.map .dense) rfl htwo
    exact ⟨g, ends, result, hg, heval, hresult⟩

end Lyapunov.Smith
