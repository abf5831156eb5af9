/-
Stored matrices as mathematical ones. `Dense.ofMatrix` stores a matrix with rows and columns in `Fin`,
`Dense.toMatrix` reads one back, and the operations on stored matrices are those of mathematics. What is
computed can so be stated, and reasoned about, with the laws of matrix algebra.
-/
import Mathlib.Algebra.BigOperators.Fin
import Mathlib.LinearAlgebra.Matrix.Notation
import Lyapunov.Proofs.Exact.Dense

namespace Lyapunov.Dense

open Finset

variable {R : Type} [CommRing R] {m n p : Nat}

/-- The matrix `M`, stored. -/
def ofMatrix (M : Matrix (Fin m) (Fin n) R) : Dense R :=
  ofFn m n fun i j => if h : i < m ∧ j < n then M ⟨i, h.1⟩ ⟨j, h.2⟩ else 0

/-- The first `m` rows and `n` columns; rows and columns past the end are zero. -/
def toMatrix (m n : Nat) (d : Dense R) : Matrix (Fin m) (Fin n) R := .of fun i j => d.get i j

@[simp] theorem shape_ofMatrix (M : Matrix (Fin m) (Fin n) R) : (ofMatrix M).shape = ⟨m, n⟩ := rfl

@[simp] theorem rows_ofMatrix (M : Matrix (Fin m) (Fin n) R) : (ofMatrix M).rows = m := rfl

@[simp] theorem cols_ofMatrix (M : Matrix (Fin m) (Fin n) R) : (ofMatrix M).cols = n := rfl

@[simp] theorem get_ofMatrix (M : Matrix (Fin m) (Fin n) R) (i : Fin m) (j : Fin n) :
    (ofMatrix M).get i j = M i j := by
  unfold ofMatrix
  rw [get_ofFn _ i.2 j.2, dif_pos ⟨i.2, j.2⟩]

/-- A stored matrix is `M` when it has the shape and the entries of `M`. -/
theorem eq_ofMatrix {d : Dense R} {M : Matrix (Fin m) (Fin n) R} (hs : d.shape = ⟨m, n⟩)
    (h : ∀ (i : Fin m) (j : Fin n), d.get i j = M i j) : d = ofMatrix M := by
  refine ext_get (rows_of_shape hs) (cols_of_shape hs) fun i j hi hj => ?_
  rw [rows_of_shape hs] at hi
  rw [cols_of_shape hs] at hj
  exact (h ⟨i, hi⟩ ⟨j, hj⟩).trans (get_ofMatrix M ⟨i, hi⟩ ⟨j, hj⟩).symm

theorem ofMatrix_injective :
    Function.Injective (ofMatrix : Matrix (Fin m) (Fin n) R → Dense R) := fun M N h => by
  ext i j
  rw [← get_ofMatrix M, h, get_ofMatrix]

theorem ofMatrix_toMatrix {d : Dense R} (h : d.shape = ⟨m, n⟩) : ofMatrix (d.toMatrix m n) = d :=
  (eq_ofMatrix h fun _ _ => rfl).symm

/-- Every matrix of a shape is a stored one. -/
theorem exists_ofMatrix {d : Dense R} (h : d.shape = ⟨m, n⟩) :
    ∃ M : Matrix (Fin m) (Fin n) R, d = ofMatrix M :=
  ⟨_, (ofMatrix_toMatrix h).symm⟩

/-- A number as the matrix with it as its only entry. -/
theorem ofScalar_eq_ofMatrix (x : R) : ofScalar x = ofMatrix !![x] :=
  eq_ofMatrix rfl fun i j => by
    rw [Subsingleton.elim i 0, Subsingleton.elim j 0]
    rfl

/-! ## Operations -/

theorem add_ofMatrix (M N : Matrix (Fin m) (Fin n) R) :
    (ofMatrix M).add (ofMatrix N) = ofMatrix (M + N) :=
  eq_ofMatrix rfl fun i j => by
    rw [get_add_of_shape (m := ofMatrix M) (n := ofMatrix N) rfl, get_ofMatrix, get_ofMatrix, Matrix.add_apply]

theorem neg_ofMatrix (M : Matrix (Fin m) (Fin n) R) : (ofMatrix M).neg = ofMatrix (-M) :=
  eq_ofMatrix rfl fun i j => by rw [get_neg', get_ofMatrix, Matrix.neg_apply]

theorem sub_ofMatrix (M N : Matrix (Fin m) (Fin n) R) :
    (ofMatrix M).add (ofMatrix N).neg = ofMatrix (M - N) := by
  rw [neg_ofMatrix, add_ofMatrix, sub_eq_add_neg]

theorem get_ofMatrix_sub (M N : Matrix (Fin m) (Fin n) R) (i j : Nat) :
    (ofMatrix (M - N)).get i j = (ofMatrix M).get i j - (ofMatrix N).get i j := by
  rw [← sub_ofMatrix, get_add_of_shape (m := ofMatrix M) (n := (ofMatrix N).neg) rfl, get_neg',
    sub_eq_add_neg]

theorem scale_ofMatrix (c : R) (M : Matrix (Fin m) (Fin n) R) :
    (ofMatrix M).scale c = ofMatrix (c • M) :=
  eq_ofMatrix rfl fun i j => by
    rw [get_scale', get_ofMatrix, Matrix.smul_apply, smul_eq_mul, mul_comm]

theorem transpose_ofMatrix (M : Matrix (Fin m) (Fin n) R) :
    (ofMatrix M).transpose = ofMatrix M.transpose :=
  eq_ofMatrix rfl fun i j => by rw [get_transpose, get_ofMatrix, Matrix.transpose_apply]

theorem mul_ofMatrix (M : Matrix (Fin m) (Fin n) R) (N : Matrix (Fin n) (Fin p) R) :
    (ofMatrix M).mul (ofMatrix N) = ofMatrix (M * N) :=
  eq_ofMatrix rfl fun i j => by
    rw [get_mul', Matrix.mul_apply, cols_ofMatrix, sum_range fun k =>
      (ofMatrix M).get i k * (ofMatrix N).get k j]
    exact sum_congr rfl fun k _ => by rw [get_ofMatrix, get_ofMatrix]

theorem zero_eq_ofMatrix : (zero ⟨m, n⟩ : Dense R) = ofMatrix (0 : Matrix (Fin m) (Fin n) R) :=
  eq_ofMatrix rfl fun i j => by rw [get_zero, Matrix.zero_apply]

end Lyapunov.Dense
