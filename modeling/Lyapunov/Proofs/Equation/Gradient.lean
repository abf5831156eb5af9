/-
Gradients of solutions and of partial sums. Over the dual numbers an answer has an epsilon part, its rate of
change. The inner product of weights with it is a sum of inner products with the epsilon parts of the data,
and the matrices in these are the gradients: for the solution `P` of the equation they are `2 Q A P` and `Q`,
where `Q` solves the equation with the transpose of `A` for the weights.
-/
import Mathlib.LinearAlgebra.Matrix.Trace
import Lyapunov.Proofs.Equation.Series
import Lyapunov.Proofs.Equation.System
import Lyapunov.Proofs.Exact.Dual
import Lyapunov.Proofs.Exact.Inner

open Kronecker

namespace Lyapunov

open Finset Matrix TrivSqZeroExt

/-! ## The inner product -/

section Frobenius

variable {R : Type} [CommRing R] {n : Nat} (W X Y : Matrix (Fin n) (Fin n) R)

/-- The sum of the products of entries in the same place. -/
def frobenius : R := (Wᵀ * X).trace

theorem frobenius_add : frobenius W (X + Y) = frobenius W X + frobenius W Y := by
  rw [frobenius, Matrix.mul_add, trace_add]
  rfl

theorem add_frobenius : frobenius (W + X) Y = frobenius W Y + frobenius X Y := by
  rw [frobenius, transpose_add, Matrix.add_mul, trace_add]
  rfl

theorem frobenius_sum (s : Finset Nat) (f : Nat → Matrix (Fin n) (Fin n) R) :
    frobenius W (∑ i ∈ s, f i) = ∑ i ∈ s, frobenius W (f i) := by
  rw [frobenius, Matrix.mul_sum, trace_sum]
  rfl

theorem sum_frobenius (s : Finset Nat) (f : Nat → Matrix (Fin n) (Fin n) R) :
    frobenius (∑ i ∈ s, f i) X = ∑ i ∈ s, frobenius (f i) X := by
  rw [frobenius, transpose_sum, Matrix.sum_mul, trace_sum]
  rfl

theorem frobenius_mul_left : frobenius W (X * Y) = frobenius (Xᵀ * W) Y := by
  rw [frobenius, frobenius, transpose_mul, transpose_transpose, Matrix.mul_assoc]

theorem frobenius_mul_right : frobenius W (X * Y) = frobenius (W * Yᵀ) X := by
  rw [frobenius, frobenius, transpose_mul, transpose_transpose, ← Matrix.mul_assoc, trace_mul_comm,
    Matrix.mul_assoc]

theorem frobenius_mul_mul (Z : Matrix (Fin n) (Fin n) R) :
    frobenius W (X * Y * Z) = frobenius (Xᵀ * W * Zᵀ) Y := by
  rw [frobenius_mul_right, frobenius_mul_left, Matrix.mul_assoc]

theorem two_smul_frobenius : frobenius (2 • W) X = 2 * frobenius W X := by
  rw [two_nsmul, add_frobenius, two_mul]

theorem frobenius_transpose : frobenius W Xᵀ = frobenius Wᵀ X := by
  rw [frobenius, frobenius, ← trace_transpose, transpose_mul, transpose_transpose, transpose_transpose,
    trace_mul_comm]

theorem frobenius_symmetricPart (K : Type) [Field K] [Algebra K R] :
    frobenius W (symmetricPart K X) = frobenius (symmetricPart K W) X := by
  have htranspose := frobenius_transpose W X
  simp only [frobenius] at htranspose
  simp only [frobenius, symmetricPart, transpose_smul, transpose_add, Matrix.mul_smul, Matrix.smul_mul,
    Matrix.mul_add, Matrix.add_mul, trace_smul, trace_add, htranspose]

/-- The inner product of stored matrices. -/
theorem Dense.inner_ofMatrix : (Dense.ofMatrix W).inner (Dense.ofMatrix X) = frobenius W X := by
  have hrow (i : Fin n) : ∑ j ∈ range n, (Dense.ofMatrix W).get i j * (Dense.ofMatrix X).get i j =
      ∑ j, W i j * X i j := by
    rw [sum_range fun j => (Dense.ofMatrix W).get i j * (Dense.ofMatrix X).get i j]
    exact sum_congr rfl fun j _ => by rw [Dense.get_ofMatrix, Dense.get_ofMatrix]
  calc (Dense.ofMatrix W).inner (Dense.ofMatrix X)
      = ∑ i : Fin n, ∑ j ∈ range n, (Dense.ofMatrix W).get i j * (Dense.ofMatrix X).get i j :=
        sum_range fun i => ∑ j ∈ range n, (Dense.ofMatrix W).get i j * (Dense.ofMatrix X).get i j
    _ = ∑ i, ∑ j, W i j * X i j := sum_congr rfl fun i _ => hrow i
    _ = frobenius W X := sum_comm

end Frobenius

/-! ## Real and epsilon parts -/

section Parts

variable {K : Type} [Field K] {n : Nat}

/-- The real parts of the entries. -/
def rePart : Matrix (Fin n) (Fin n) (DualNumber K) →ₐ[K] Matrix (Fin n) (Fin n) K := (fstHom K K K).mapMatrix

/-- The epsilon parts of the entries. -/
def epPart : Matrix (Fin n) (Fin n) (DualNumber K) →ₗ[K] Matrix (Fin n) (Fin n) K := (sndHom K K).mapMatrix

variable (A V X Y : Matrix (Fin n) (Fin n) (DualNumber K))

theorem rePart_apply (i j : Fin n) : rePart X i j = (X i j).fst := rfl

theorem epPart_apply (i j : Fin n) : epPart X i j = (X i j).snd := rfl

theorem rePart_transpose : rePart Xᵀ = (rePart X)ᵀ := rfl

theorem epPart_transpose : epPart Xᵀ = (epPart X)ᵀ := rfl

theorem rePart_symmetricPart : rePart (symmetricPart K X) = symmetricPart K (rePart X) := by
  rw [symmetricPart, map_smul, map_add, rePart_transpose, symmetricPart]

theorem epPart_symmetricPart : epPart (symmetricPart K X) = symmetricPart K (epPart X) := by
  rw [symmetricPart, map_smul, map_add, epPart_transpose, symmetricPart]

/-- The product rule. -/
theorem epPart_mul : epPart (X * Y) = epPart X * rePart Y + rePart X * epPart Y := by
  ext i j
  rw [epPart_apply, mul_apply, snd_sum, Matrix.add_apply, mul_apply, mul_apply, ← sum_add_distrib]
  refine sum_congr rfl fun k _ => ?_
  rw [snd_mul, op_smul_eq_smul, smul_eq_mul, smul_eq_mul, add_comm, mul_comm (Y k j).fst]
  rfl

/-- The rate of change of a power: each of the factors changes in turn. -/
theorem epPart_pow (i : Nat) :
    epPart (A ^ i) = ∑ j ∈ range i, rePart A ^ j * epPart A * rePart A ^ (i - 1 - j) := by
  induction i with
  | zero =>
    rw [pow_zero, range_zero, sum_empty]
    ext k l
    rw [epPart_apply, one_apply, Matrix.zero_apply]
    split <;> rfl
  | succ i ih =>
    rw [pow_succ, epPart_mul, ih, map_pow, sum_mul, sum_range_succ, Nat.add_sub_cancel, Nat.sub_self,
      pow_zero, mul_one]
    refine congrArg (· + _) (sum_congr rfl fun j hj => ?_)
    have hj := mem_range.1 hj
    rw [mul_assoc, ← pow_succ, show i - 1 - j + 1 = i - j by omega]

/-- Every pair of matrices consists of the parts of one over the dual numbers. -/
theorem exists_parts (B D : Matrix (Fin n) (Fin n) K) :
    ∃ X : Matrix (Fin n) (Fin n) (DualNumber K), rePart X = B ∧ epPart X = D :=
  ⟨.of fun i j => (B i j, D i j), rfl, rfl⟩

theorem Dense.re_ofMatrix : (Dense.ofMatrix X).re = Dense.ofMatrix (rePart X) :=
  Dense.eq_ofMatrix rfl fun i j => by rw [Dense.get_re, Dense.get_ofMatrix, rePart_apply]

theorem Dense.ep_ofMatrix : (Dense.ofMatrix X).ep = Dense.ofMatrix (epPart X) :=
  Dense.eq_ofMatrix rfl fun i j => by rw [Dense.get_ep, Dense.get_ofMatrix, epPart_apply]

theorem Dense.dual_ofMatrix :
    Dense.dual (Dense.ofMatrix (rePart X)) (Dense.ofMatrix (epPart X)) = Dense.ofMatrix X := by
  rw [← Dense.re_ofMatrix, ← Dense.ep_ofMatrix, Dense.dual_re_ep]

/-- The equation over the dual numbers is regular when that of the real parts is. -/
theorem isUnit_det_iff : IsUnit (1 - A ⊗ₖ A).det ↔ (1 - rePart A ⊗ₖ rePart A).det ≠ 0 := by
  have hmap : (fstHom K K K).toRingHom.mapMatrix (1 - A ⊗ₖ A) = 1 - rePart A ⊗ₖ rePart A := by
    rw [map_sub, map_one]
    refine congrArg (1 - ·) ?_
    ext i j
    exact fst_mul _ _
  rw [isUnit_iff_isUnit_fst, ← isUnit_iff_ne_zero, ← hmap, ← RingHom.map_det]
  rfl

end Parts

/-! ## Gradients -/

section Gradient

variable {K : Type} [Field K] {n : Nat} {W Q : Matrix (Fin n) (Fin n) K}
  {A V P B S T : Matrix (Fin n) (Fin n) (DualNumber K)}

/-- A symmetric matrix changes symmetrically, so that only the symmetric part of weights matters. -/
theorem frobenius_epPart_of_symmetric (hT : symmetricPart K T = T) (W : Matrix (Fin n) (Fin n) K) :
    frobenius W (epPart T) = frobenius (symmetricPart K W) (epPart T) := by
  conv_lhs => rw [← hT, epPart_symmetricPart, frobenius_symmetricPart]

/-- The gradients of `B S B'`, for a symmetric matrix `S` and symmetric weights. -/
theorem frobenius_epPart_congruence (hW : Wᵀ = W) (hS : (rePart S)ᵀ = rePart S) :
    frobenius W (epPart (B * S * Bᵀ)) = 2 * frobenius (W * rePart B * rePart S) (epPart B) +
      frobenius ((rePart B)ᵀ * W * rePart B) (epPart S) := by
  have hleft : frobenius W (epPart B * rePart S * (rePart B)ᵀ) =
      frobenius (W * rePart B * rePart S) (epPart B) := by
    rw [frobenius_mul_right, frobenius_mul_right, transpose_transpose, hS]
  have hright : frobenius W (rePart B * rePart S * (epPart B)ᵀ) =
      frobenius (W * rePart B * rePart S) (epPart B) := by
    rw [frobenius_mul_left, frobenius_transpose, transpose_mul, transpose_transpose, hW, Matrix.mul_assoc]
  have hmiddle := frobenius_mul_mul W (rePart B) (epPart S) (rePart B)ᵀ
  rw [transpose_transpose] at hmiddle
  rw [epPart_mul, epPart_mul, map_mul, rePart_transpose, epPart_transpose, Matrix.add_mul, frobenius_add,
    frobenius_add, hleft, hmiddle, hright]
  ring

/-- Where the equation has one solution, that for a symmetric matrix is symmetric. -/
theorem symmetricPart_solution {R : Type} [CommRing R] [Algebra K R] {A P V : Matrix (Fin n) (Fin n) R}
    (hA : IsUnit (1 - A ⊗ₖ A).det) (hP : P = A * P * Aᵀ + symmetricPart K V) : symmetricPart K P = P := by
  refine (existsUnique_solution hA _).unique ?_ hP
  conv_lhs => rw [hP]
  rw [symmetricPart_add, symmetricPart_congruence, symmetricPart_symmetricPart]

theorem det_one_sub_kronecker_transpose (A : Matrix (Fin n) (Fin n) K) :
    (1 - Aᵀ ⊗ₖ Aᵀ).det = (1 - A ⊗ₖ A).det := by
  rw [← det_transpose (1 - A ⊗ₖ A), transpose_sub, transpose_one, kroneckerMap_transpose]

/-- The equation with the transpose of `A` has one solution as well. -/
theorem existsUnique_adjoint {A : Matrix (Fin n) (Fin n) K} (hA : (1 - A ⊗ₖ A).det ≠ 0)
    (W : Matrix (Fin n) (Fin n) K) : ∃! Q, Q = Aᵀ * Q * A + W := by
  have hunique := existsUnique_solution (A := Aᵀ) (by rwa [det_one_sub_kronecker_transpose, isUnit_iff_ne_zero]) W
  rwa [transpose_transpose] at hunique

/-- The gradients of the solution: `2 Q A P` for `A` and `Q` for `V`. -/
theorem frobenius_epPart_solution (hA : (1 - rePart A ⊗ₖ rePart A).det ≠ 0)
    (hP : P = A * P * Aᵀ + symmetricPart K V) (hQ : Q = (rePart A)ᵀ * Q * rePart A + symmetricPart K W) :
    frobenius W (epPart P) =
      frobenius (2 • (Q * rePart A * rePart P)) (epPart A) + frobenius Q (epPart V) := by
  have hPsymm : symmetricPart K P = P := symmetricPart_solution ((isUnit_det_iff A).2 hA) hP
  have hPt : (rePart P)ᵀ = rePart P := by rw [← hPsymm, rePart_symmetricPart, transpose_symmetricPart]
  have hQsymm : symmetricPart K Q = Q := by
    refine symmetricPart_solution (A := (rePart A)ᵀ) ?_ (by rwa [transpose_transpose])
    rw [det_one_sub_kronecker_transpose]
    exact hA.isUnit
  have hQt : Qᵀ = Q := by rw [← hQsymm, transpose_symmetricPart]
  -- the weights are what `Q` exceeds `A' Q A` by
  have hweights : frobenius Q (epPart P) =
      frobenius ((rePart A)ᵀ * Q * rePart A) (epPart P) + frobenius W (epPart P) := by
    conv_lhs => rw [hQ]
    rw [add_frobenius, frobenius_epPart_of_symmetric hPsymm W]
  have hrate : frobenius Q (epPart P) = 2 * frobenius (Q * rePart A * rePart P) (epPart A) +
      frobenius ((rePart A)ᵀ * Q * rePart A) (epPart P) + frobenius Q (epPart V) := by
    conv_lhs => rw [hP]
    rw [map_add, frobenius_add, frobenius_epPart_congruence hQt hPt, epPart_symmetricPart,
      frobenius_symmetricPart, hQsymm]
  rw [two_smul_frobenius]
  linear_combination hrate - hweights

/-- Half of the gradient of the sum of `k` terms for `A`, where `V` and the weights `W` are symmetric: in the
term with `A ^ i` each of the `i` factors on either side has a part. -/
def partialSumGradient {R : Type} [CommRing R] (A V W : Matrix (Fin n) (Fin n) R) (k : Nat) :
    Matrix (Fin n) (Fin n) R :=
  ∑ i ∈ range k, ∑ j ∈ range i, (A ^ j)ᵀ * W * A ^ i * V * (A ^ (i - 1 - j))ᵀ

/-- The gradients of a term of the series. -/
theorem frobenius_epPart_term (i : Nat) (W : Matrix (Fin n) (Fin n) K) :
    frobenius W (epPart (A ^ i * symmetricPart K V * (A ^ i)ᵀ)) =
      2 * frobenius (∑ j ∈ range i, (rePart A ^ j)ᵀ * symmetricPart K W * rePart A ^ i *
        rePart (symmetricPart K V) * (rePart A ^ (i - 1 - j))ᵀ) (epPart A) +
      frobenius ((rePart A ^ i)ᵀ * symmetricPart K W * rePart A ^ i) (epPart V) := by
  have hT : symmetricPart K (A ^ i * symmetricPart K V * (A ^ i)ᵀ) =
      A ^ i * symmetricPart K V * (A ^ i)ᵀ := by
    rw [symmetricPart_congruence, symmetricPart_symmetricPart]
  have hV : (rePart (symmetricPart K V))ᵀ = rePart (symmetricPart K V) := by
    rw [rePart_symmetricPart, transpose_symmetricPart]
  -- each of the factors of the power contributes
  have hpower : frobenius (symmetricPart K W * rePart A ^ i * rePart (symmetricPart K V)) (epPart (A ^ i)) =
      frobenius (∑ j ∈ range i, (rePart A ^ j)ᵀ * symmetricPart K W * rePart A ^ i *
        rePart (symmetricPart K V) * (rePart A ^ (i - 1 - j))ᵀ) (epPart A) := by
    rw [epPart_pow, frobenius_sum, sum_frobenius]
    refine sum_congr rfl fun j _ => ?_
    rw [frobenius_mul_mul]
    simp only [Matrix.mul_assoc]
  have hsymm := symmetricPart_congruence K (rePart A ^ i)ᵀ (symmetricPart K W)
  rw [transpose_transpose, symmetricPart_symmetricPart] at hsymm
  rw [frobenius_epPart_of_symmetric hT, frobenius_epPart_congruence (transpose_symmetricPart K W) hV,
    map_pow, hpower, epPart_symmetricPart, frobenius_symmetricPart, hsymm]

/-- The gradients of a partial sum. -/
theorem frobenius_epPart_partialSum (k : Nat) (W : Matrix (Fin n) (Fin n) K) :
    frobenius W (epPart (partialSum A (symmetricPart K V) k)) =
      frobenius (2 • partialSumGradient (rePart A) (rePart (symmetricPart K V)) (symmetricPart K W) k)
        (epPart A) +
      frobenius (∑ i ∈ range k, (rePart A ^ i)ᵀ * symmetricPart K W * rePart A ^ i) (epPart V) := by
  rw [partialSum, map_sum, frobenius_sum, sum_congr rfl fun i _ => frobenius_epPart_term i W,
    sum_add_distrib, ← mul_sum, two_smul_frobenius, ← sum_frobenius, ← sum_frobenius, partialSumGradient]

end Gradient

end Lyapunov
