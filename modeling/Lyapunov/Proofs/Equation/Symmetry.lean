/-
Symmetry. For a symmetric right-hand side the partial sums of the series and the only solution of the
equation are symmetric, and so are the answers of the low-rank equation for them. The right-hand sides of
both classes of equations depend on `V` through its symmetric part only, over the dual numbers as well.
-/
import Lyapunov.Proofs.Equation.Data
import Lyapunov.Proofs.Equation.Gradient

open Kronecker

namespace Lyapunov

open Finset Matrix

/-! ## Schemes -/

/-- How a method obtains a matrix from `A` and the right-hand side. -/
inductive Scheme where
  /-- As the sum of the first terms of the series. -/
  | series (terms : Nat)
  /-- As the solution of the linear system. -/
  | system

namespace Scheme

variable {R : Type} [CommRing R] {n : Nat} {A W P : Matrix (Fin n) (Fin n) R}

/-- The scheme gives `P` for `A` and the right-hand side `W`. -/
def Gives (scheme : Scheme) (A W P : Matrix (Fin n) (Fin n) R) : Prop :=
  match scheme with
  | series terms => P = partialSum A W terms
  | system => P = A * P * Aᵀ + W

/-- The scheme gives one matrix for every right-hand side. -/
def Regular (scheme : Scheme) (A : Matrix (Fin n) (Fin n) R) : Prop :=
  match scheme with
  | series _ => True
  | system => IsUnit (1 - A ⊗ₖ A).det

theorem Regular.existsUnique {scheme : Scheme} (hA : scheme.Regular A) (W : Matrix (Fin n) (Fin n) R) :
    ∃! P, scheme.Gives A W P := by
  cases scheme with
  | series terms => exact existsUnique_eq
  | system => exact existsUnique_solution hA W

theorem Gives.transpose {scheme : Scheme} (h : scheme.Gives A W P) : scheme.Gives A Wᵀ Pᵀ := by
  cases scheme with
  | series terms =>
    obtain rfl : P = partialSum A W terms := h
    show (partialSum A W terms)ᵀ = partialSum A Wᵀ terms
    rw [partialSum, transpose_sum]
    refine sum_congr rfl fun i _ => ?_
    rw [transpose_mul, transpose_mul, transpose_transpose, Matrix.mul_assoc]
  | system =>
    have h : P = A * P * Aᵀ + W := h
    show Pᵀ = A * Pᵀ * Aᵀ + Wᵀ
    conv_lhs => rw [h]
    rw [transpose_add, transpose_mul, transpose_mul, transpose_transpose, Matrix.mul_assoc]

/-- What the scheme gives for a symmetric right-hand side is symmetric. -/
theorem Regular.transpose_eq {scheme : Scheme} (hA : scheme.Regular A) (hW : Wᵀ = W)
    (h : scheme.Gives A W P) : Pᵀ = P := by
  have htranspose := h.transpose
  rw [hW] at htranspose
  exact (hA.existsUnique W).unique htranspose h

/-- Over the dual numbers the real parts decide whether the scheme gives one matrix. -/
theorem regular_dual_iff {K : Type} [Field K] {scheme : Scheme} {A : Matrix (Fin n) (Fin n) (DualNumber K)} :
    scheme.Regular A ↔ scheme.Regular (rePart A) := by
  cases scheme with
  | series terms => exact Iff.rfl
  | system => exact (isUnit_det_iff A).trans isUnit_iff_ne_zero.symm

end Scheme

/-! ## Stored matrices -/

namespace Dense

variable {R : Type} [CommRing R]

/-- A matrix is symmetric when its inner product with every matrix that is the negative of its transpose is
zero. -/
theorem transpose_eq_of_inner {n : Nat} {x : Dense R} (hx : x.shape = .square n)
    (h : ∀ d : Dense R, d.shape = .square n → d.transpose = d.neg → x.inner d = 0) : x.transpose = x := by
  have hxt : x.transpose.shape = .square n := congrArg Shape.transpose hx
  refine eq_of_inner (hxt.trans hx.symm) fun d hd => ?_
  have hd : d.shape = .square n := hd.trans hxt
  have hshape : d.shape = d.transpose.neg.shape := hd.trans (congrArg Shape.transpose hd).symm
  have hskew : (d.add d.transpose.neg).transpose = (d.add d.transpose.neg).neg := by
    refine ext_shape ((congrArg Shape.transpose hd).trans hd.symm) fun i j => ?_
    rw [get_transpose, get_neg', get_add_of_shape hshape, get_add_of_shape hshape, get_neg', get_neg',
      get_transpose, get_transpose, neg_add, neg_neg, add_comm]
  have hzero := h (d.add d.transpose.neg) hd hskew
  rw [inner_add hshape, inner_neg, neg_inner, inner_transpose, ← sub_eq_add_neg, sub_eq_zero] at hzero
  exact hzero.symm

/-- Matrices with the same sum with their transposes have the same symmetric part. -/
theorem symmetricPart_toMatrix_congr (K : Type) [Field K] [Algebra K R] {n : Nat} {v w : Dense R}
    (hv : v.shape = .square n) (hw : w.shape = .square n) (h : w.add w.transpose = v.add v.transpose) :
    symmetricPart K (w.toMatrix n n) = symmetricPart K (v.toMatrix n n) := by
  have hsum {x : Dense R} (hx : x.shape = .square n) :
      x.add x.transpose = ofMatrix (x.toMatrix n n + (x.toMatrix n n)ᵀ) := by
    rw [← add_ofMatrix, ← transpose_ofMatrix, ofMatrix_toMatrix hx]
  rw [hsum hv, hsum hw] at h
  rw [symmetricPart, symmetricPart, ofMatrix_injective h]

/-- A matrix that is the negative of its transpose has the symmetric part of zero. -/
theorem add_transpose_of_skew {d : Dense R} (h : d.transpose = d.neg) :
    d.add d.transpose = (zero d.shape).add (zero d.shape).transpose := by
  have hshape : d.shape.transpose = d.shape := congrArg (·.shape) h
  rw [h, transpose_zero, hshape, zero_add_zero]
  refine ext_shape rfl fun i j => ?_
  rw [get_add_of_shape (shape_neg d).symm, get_neg', add_neg_cancel, get_zero]

/-- Rates of change with the same symmetric part. -/
theorem dual_add_transpose_congr {n : Nat} {v d d' : Dense R} (hv : v.shape = .square n)
    (hd : d.shape = v.shape) (hd' : d'.shape = v.shape) (h : d'.add d'.transpose = d.add d.transpose) :
    (dual v d').add (dual v d').transpose = (dual v d).add (dual v d).transpose := by
  have hshape : v.shape = v.transpose.shape := hv.trans (congrArg Shape.transpose hv).symm
  have hsum {x : Dense R} (hx : x.shape = v.shape) : (dual v x).add (dual v x).transpose =
      dual (v.add v.transpose) (x.add x.transpose) := by
    have hxt : x.transpose.shape = v.transpose.shape := congrArg Shape.transpose hx
    rw [dual_transpose hx, dual_add hx hxt hshape]
  rw [hsum hd, hsum hd', h]

end Dense

/-! ## The low-rank equation -/

namespace LowRankDle

open Lyapunov.Dense

variable {R : Type} [CommRing R]

theorem transpose_projections {n : Nat} (Bs : List (ColumnBlock R n)) (P : Matrix (Fin n) (Fin n) R) :
    (projections Bs P).transpose = projections Bs Pᵀ := by
  refine ext_shape ((congrArg Shape.transpose (shape_projections Bs P)).trans (shape_projections Bs _).symm)
    fun i j => ?_
  rw [get_transpose]
  induction Bs generalizing i j with
  | nil => simp only [projections, List.map_nil, Dense.blockDiagonal, get_zero]
  | cons B Bs ih =>
    have hproject : B.project Pᵀ = (B.project P)ᵀ := by
      simp only [ColumnBlock.project, Matrix.transpose_mul, Matrix.transpose_transpose, Matrix.mul_assoc]
    rw [get_projections_cons, get_projections_cons, ih, hproject, ← transpose_ofMatrix,
      get_transpose]
    exact congrArg (_ + ·) (if_congr And.comm rfl rfl)

/-- The answer for a symmetric solution is symmetric. -/
theorem transpose_answer (H : Option (Dense R)) (widths : List Nat) {n : Nat} {P : Matrix (Fin n) (Fin n) R}
    (hP : Pᵀ = P) : (answer H widths P).transpose = answer H widths P := by
  cases H with
  | none => exact (transpose_ofMatrix P).trans (congrArg ofMatrix hP)
  | some d => exact (transpose_projections _ P).trans (congrArg (projections _) hP)

theorem transpose_rhs (K : Type) [Field K] [Algebra K R] (n : Nat) (v : Dense R) (c : Option (Dense R)) :
    (rhs K n v c)ᵀ = rhs K n v c := by
  rw [← symmetricPart_rhs, transpose_symmetricPart]

namespace Data

variable {e : LowRankDle} (d : Data R e)

/-- The right-hand side depends on the symmetric part of `V` only. -/
theorem rhs_withV (K : Type) [Field K] [Algebra K R] (he : e.Valid) {v : Dense R} (hv : v.shape = e.v)
    (h : v.add v.transpose = d.v.add d.v.transpose) : (d.withV v hv).rhs K = d.rhs K := by
  obtain ⟨a, w, c, H, hsa, hsw, hsc, hsh⟩ := d
  have hsquare := he.v
  rw [← hsc] at hsquare
  cases c with
  | none => exact symmetricPart_toMatrix_congr K (hsw.trans hsquare) (hv.trans hsquare) h
  | some c =>
    have hpart := symmetricPart_toMatrix_congr K (hsw.trans hsquare) (hv.trans hsquare) h
    exact congrArg (fun V => c.toMatrix _ c.cols * V * (c.toMatrix _ c.cols)ᵀ) hpart

end Data

end LowRankDle

end Lyapunov
