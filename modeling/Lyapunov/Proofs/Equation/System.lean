/-
The discrete Lyapunov equation as a linear system. With the entries of matrices written column by column,
`P = A P A' + W` is the system with the matrix `I - A ⊗ A`. The equation has one solution for every `W`
where that matrix has an inverse, and elimination then finds it; otherwise elimination fails.
-/
import Mathlib.LinearAlgebra.Matrix.ToLinearEquiv
import Mathlib.LinearAlgebra.Matrix.Vec
import Lyapunov.Proofs.Exact.Matrix
import Lyapunov.Proofs.Exact.Solve

open Kronecker

namespace Lyapunov

open Finset Matrix

/-! ## The equation -/

section Equation

variable {R : Type} [CommRing R] {n : Nat}

theorem one_sub_kronecker_mulVec (A X : Matrix (Fin n) (Fin n) R) :
    (1 - A ⊗ₖ A) *ᵥ vec X = vec (X - A * X * Aᵀ) := by
  rw [sub_mulVec, one_mulVec, kronecker_mulVec_vec, vec_sub]

/-- Where `I - A ⊗ A` has an inverse the equation has exactly one solution. -/
theorem existsUnique_solution {A : Matrix (Fin n) (Fin n) R} (hA : IsUnit (1 - A ⊗ₖ A).det)
    (W : Matrix (Fin n) (Fin n) R) : ∃! P, P = A * P * Aᵀ + W := by
  have hbijective : Function.Bijective ((1 - A ⊗ₖ A) *ᵥ ·) :=
    ⟨mulVec_injective_of_isUnit ((isUnit_iff_isUnit_det _).2 hA),
      mulVec_surjective_iff_isUnit.2 ((isUnit_iff_isUnit_det _).2 hA)⟩
  have hsolves (P : Matrix (Fin n) (Fin n) R) :
      P = A * P * Aᵀ + W ↔ (1 - A ⊗ₖ A) *ᵥ vec P = vec W := by
    rw [one_sub_kronecker_mulVec, vec_inj, sub_eq_iff_eq_add, add_comm W]
  obtain ⟨x, hx, hunique⟩ := hbijective.existsUnique (vec W)
  obtain ⟨P, rfl⟩ := vec_bijective.surjective x
  exact ⟨P, (hsolves P).2 hx, fun Q hQ => vec_inj.1 (hunique _ ((hsolves Q).1 hQ))⟩

/-- Over a field `I - A ⊗ A` is singular exactly when a matrix other than zero is `A X A'`. -/
theorem det_eq_zero_iff {K : Type} [Field K] {A : Matrix (Fin n) (Fin n) K} :
    (1 - A ⊗ₖ A).det = 0 ↔ ∃ X ≠ 0, X = A * X * Aᵀ := by
  rw [← exists_mulVec_eq_zero_iff]
  constructor
  · rintro ⟨x, hx, hzero⟩
    obtain ⟨X, rfl⟩ := vec_bijective.surjective x
    refine ⟨X, fun h => hx (vec_eq_zero_iff.2 h), ?_⟩
    rwa [one_sub_kronecker_mulVec, vec_eq_zero_iff, sub_eq_zero] at hzero
  · rintro ⟨X, hX, hfixed⟩
    refine ⟨vec X, fun h => hX (vec_eq_zero_iff.1 h), ?_⟩
    rw [one_sub_kronecker_mulVec, vec_eq_zero_iff, sub_eq_zero]
    exact hfixed

end Equation

namespace Dense

variable {R : Type} [CommRing R] {n : Nat}

/-! ## Columns -/

/-- Changing the shape and changing it back. -/
theorem reshape_reshape {d : Dense R} {s : Shape} (h : s.size = d.shape.size) :
    (d.reshape s).reshape d.shape = d := by
  refine ext_get rfl rfl fun i j hi hj => ?_
  have hi : i < d.rows := hi
  have hk : i + j * d.rows < d.shape.size := place_lt hi hj
  calc ((d.reshape s).reshape d.shape).get i j
      = ((d.reshape s).reshape d.shape).entry (i + j * d.rows) := get_eq_entry j hi
    _ = d.entry (i + j * d.rows) := (entry_reshape hk).trans (entry_reshape (h ▸ hk))
    _ = d.get i j := (get_eq_entry j hi).symm

/-- The entries of a square matrix, column by column. -/
def vec (X : Matrix (Fin n) (Fin n) R) : Dense R := (ofMatrix X).reshape (.vector (n * n))

theorem size_vector (n : Nat) : (Shape.vector (n * n)).size = (Shape.square n).size := Nat.mul_one _

theorem reshape_vec (X : Matrix (Fin n) (Fin n) R) : (vec X).reshape (.square n) = ofMatrix X :=
  reshape_reshape (d := ofMatrix X) (size_vector n)

theorem vec_injective : Function.Injective (vec : Matrix (Fin n) (Fin n) R → Dense R) := fun X Y h =>
  ofMatrix_injective (by rw [← reshape_vec, h, reshape_vec])

/-- Every column of `n * n` entries is that of a matrix. -/
theorem exists_vec {d : Dense R} (h : d.shape = ⟨n * n, 1⟩) :
    ∃ X : Matrix (Fin n) (Fin n) R, d = vec X := by
  obtain ⟨X, hX⟩ := exists_ofMatrix (d := d.reshape (.square n)) (m := n) (n := n) rfl
  have hsize : (Shape.square n).size = d.shape.size := by rw [h]; exact (size_vector n).symm
  refine ⟨X, ?_⟩
  calc d = (d.reshape (.square n)).reshape d.shape := (reshape_reshape hsize).symm
    _ = vec X := by rw [hX, h]; rfl

theorem vec_zero : vec (0 : Matrix (Fin n) (Fin n) R) = zero ⟨n * n, 1⟩ := by
  rw [vec, ← zero_eq_ofMatrix, reshape_zero]
  rfl

/-- The entry in place `k` stands in row `k % n` and column `k / n`. -/
theorem get_vec (X : Matrix (Fin n) (Fin n) R) {k : Nat} (hk : k < n * n) :
    (vec X).get k 0 = (ofMatrix X).get (k % n) (k / n) := by
  have hplace : k + 0 * (n * n) = k := by rw [Nat.zero_mul, Nat.add_zero]
  have hsize : k < (Shape.vector (n * n)).size := by rw [Shape.size, Shape.vector, Nat.mul_one]; exact hk
  rw [get_eq_entry (m := vec X) 0 hk]
  show (vec X).entry (k + 0 * (n * n)) = _
  rw [hplace, vec, entry_reshape hsize, entry_eq_get, rows_ofMatrix]

theorem vec_sub (X Y : Matrix (Fin n) (Fin n) R) : vec (X - Y) = (vec X).add (vec Y).neg := by
  refine ext_get rfl rfl fun k j hk hj => ?_
  have hk : k < n * n := hk
  obtain rfl : j = 0 := Nat.lt_one_iff.1 hj
  rw [get_add_of_shape (m := vec X) (n := (vec Y).neg) rfl, get_neg', get_vec _ hk, get_vec _ hk,
    get_vec _ hk, get_ofMatrix_sub, sub_eq_add_neg]

/-- A Kronecker square acts on columns as its factor does from either side on matrices. -/
theorem kron_mul_vec (A X : Matrix (Fin n) (Fin n) R) :
    ((ofMatrix A).kron (ofMatrix A)).mul (vec X) = vec (A * X * Aᵀ) := by
  refine ext_get rfl rfl fun i j hi hj => ?_
  have hi : i < n * n := hi
  obtain rfl : j = 0 := Nat.lt_one_iff.1 hj
  rw [get_vec _ hi, ← mul_ofMatrix, ← mul_ofMatrix, ← transpose_ofMatrix, get_mul', get_mul']
  show ∑ k ∈ range (n * n), _ = ∑ a ∈ range n, _
  rw [sum_range_mul]
  refine sum_congr rfl fun a ha => ?_
  rw [get_mul', sum_mul, get_transpose, cols_ofMatrix]
  refine sum_congr rfl fun b hb => ?_
  have hb := mem_range.1 hb
  have hn : 0 < n := by omega
  have hab : a * n + b < n * n := by
    have := place_lt hb (mem_range.1 ha)
    rwa [Nat.add_comm] at this
  rw [get_vec X hab, get_kron, rows_ofMatrix, cols_ofMatrix, Nat.mul_add_mod_self_right,
    Nat.mod_eq_of_lt hb, Nat.mul_comm a, Nat.mul_add_div hn, Nat.div_eq_of_lt hb, Nat.add_zero]
  ring

/-! ## The system -/

/-- The matrix `I - A ⊗ A`. -/
def lyapunovSystem (A : Matrix (Fin n) (Fin n) R) : Dense R :=
  (identity (n * n)).add ((ofMatrix A).kron (ofMatrix A)).neg

theorem lyapunovSystem_mul_vec (A X : Matrix (Fin n) (Fin n) R) :
    (lyapunovSystem A).mul (vec X) = vec (X - A * X * Aᵀ) := by
  have hidentity : (identity (n * n)).mul (vec X) = vec X := identity_mul (vec X)
  have hshape : (identity (n * n) : Dense R).shape = ((ofMatrix A).kron (ofMatrix A)).neg.shape := rfl
  rw [lyapunovSystem, add_mul' _ hshape, hidentity, neg_mul', kron_mul_vec, vec_sub]

/-- The system has the solutions of the equation as its solutions. -/
theorem lyapunovSystem_mul_eq_iff {A W X : Matrix (Fin n) (Fin n) R} :
    (lyapunovSystem A).mul (vec X) = vec W ↔ X = A * X * Aᵀ + W := by
  rw [lyapunovSystem_mul_vec, vec_injective.eq_iff, sub_eq_iff_eq_add, add_comm W]

section Solve

variable {K : Type} [ExactScalar K] {A W P : Matrix (Fin n) (Fin n) K}

/-- Elimination finds the solution of the equation where there is one for every right-hand side. -/
theorem solution_lyapunovSystem (hn : 0 < n) (hA : (1 - A ⊗ₖ A).det ≠ 0) (hP : P = A * P * Aᵀ + W) :
    solution (lyapunovSystem A) (vec W) = .ok (vec P) := by
  have hkernel : ∀ z : Dense K, z.shape = ⟨n * n, 1⟩ →
      (lyapunovSystem A).mul z = zero ⟨n * n, 1⟩ → z = zero ⟨n * n, 1⟩ := by
    intro z hz hzero
    obtain ⟨Z, rfl⟩ := exists_vec hz
    rw [← vec_zero, lyapunovSystem_mul_eq_iff] at hzero
    have hzero' : (0 : Matrix (Fin n) (Fin n) K) = A * 0 * Aᵀ + 0 := by simp
    rw [(existsUnique_solution hA.isUnit 0).unique hzero hzero', vec_zero]
  have hsolve := exists_solve?_of_kernel (m := lyapunovSystem A) rfl hkernel (vec W)
  have hrows : (lyapunovSystem A).rows ≠ 0 := (Nat.mul_pos hn hn).ne'
  obtain ⟨x, hx⟩ := exists_solution_iff.2 (.inr ⟨hrows, hsolve⟩)
  obtain ⟨hs, hmul⟩ := solution_eq_ok (m := lyapunovSystem A) (b := vec W) rfl rfl hx
  obtain ⟨X, rfl⟩ := exists_vec hs
  rw [hx, (existsUnique_solution hA.isUnit W).unique (lyapunovSystem_mul_eq_iff.1 hmul) hP]

/-- Elimination fails where the equation has other solutions than zero for the right-hand side zero. -/
theorem solution_lyapunovSystem_singular (hn : 0 < n) (hA : (1 - A ⊗ₖ A).det = 0) :
    solution (lyapunovSystem A) (vec W) = .error (.singularMatrix (n * n)) := by
  obtain ⟨X, hX, hfixed⟩ := det_eq_zero_iff.1 hA
  have hnone : (lyapunovSystem A).solve? (vec W) = none := by
    refine Option.eq_none_iff_forall_ne_some.2 fun x hx => hX ?_
    have hzero : (lyapunovSystem A).mul (vec X) =
        (lyapunovSystem A).mul (vec (0 : Matrix (Fin n) (Fin n) K)) := by
      rw [lyapunovSystem_mul_vec, lyapunovSystem_mul_vec, ← hfixed]
      simp
    exact vec_injective (mul_left_inj_of_solve? (m := lyapunovSystem A) rfl ⟨x, hx⟩ rfl rfl hzero)
  have hcols : (vec W).cols ≠ 0 := Nat.one_ne_zero
  have hrows : (lyapunovSystem A).rows ≠ 0 := (Nat.mul_pos hn hn).ne'
  unfold solution
  rw [if_neg hcols, if_neg hrows, hnone]
  rfl

end Solve

end Dense

end Lyapunov
