/-
The four products: of matrices, Kronecker, and the two contractions. Each adds up, for an entry of the
result, products of entries of the factors, at places which the shapes of the factors decide. So each
is linear in both factors, and a factor of zeros gives zeros.
-/
import Mathlib.Algebra.BigOperators.Group.List.Basic
import Lyapunov.Proofs.Exact.Dense

namespace Lyapunov

/-- A product: the shape of the result, and for each of its entries the places in the two factors
whose products are added up. -/
structure Product where
  shape : Shape → Shape → Shape
  terms : Shape → Shape → Nat → Nat → List ((Nat × Nat) × (Nat × Nat))

namespace Product

variable {R : Type} [CommRing R]

def apply (p : Product) (x y : Dense R) : Dense R :=
  .ofFn (p.shape x.shape y.shape).rows (p.shape x.shape y.shape).cols fun i j =>
    ((p.terms x.shape y.shape i j).map fun t => x.get t.1.1 t.1.2 * y.get t.2.1 t.2.2).sum

@[simp] theorem shape_apply (p : Product) (x y : Dense R) :
    (p.apply x y).shape = p.shape x.shape y.shape := rfl

theorem get_apply (p : Product) (x y : Dense R) {i j : Nat} (hi : i < (p.shape x.shape y.shape).rows)
    (hj : j < (p.shape x.shape y.shape).cols) :
    (p.apply x y).get i j =
      ((p.terms x.shape y.shape i j).map fun t => x.get t.1.1 t.1.2 * y.get t.2.1 t.2.2).sum :=
  Dense.get_ofFn _ hi hj

theorem zero_apply (p : Product) (s : Shape) (y : Dense R) :
    p.apply (.zero s) y = .zero (p.shape s y.shape) := by
  refine Dense.ext_get rfl rfl fun i j hi hj => ?_
  rw [get_apply p _ _ hi hj, Dense.get_zero]
  simp only [Dense.get_zero, zero_mul]
  exact List.sum_map_zero

theorem apply_zero (p : Product) (x : Dense R) (s : Shape) :
    p.apply x (.zero s) = .zero (p.shape x.shape s) := by
  refine Dense.ext_get rfl rfl fun i j hi hj => ?_
  rw [get_apply p _ _ hi hj, Dense.get_zero]
  simp only [Dense.get_zero, mul_zero]
  exact List.sum_map_zero

/-! ## The four products -/

def matmul : Product where
  shape s t := ⟨s.rows, t.cols⟩
  terms s _ i j := (List.range s.cols).map fun k => ((i, k), (k, j))

def kron : Product where
  shape s t := ⟨s.rows * t.rows, s.cols * t.cols⟩
  terms _ t i j := [((i / t.rows, j / t.cols), (i % t.rows, j % t.cols))]

def kronContractLeft : Product where
  shape s t := ⟨s.rows / t.rows, s.cols / t.cols⟩
  terms _ t i j := (Dense.places t).map fun p => ((i * t.rows + p.1, j * t.cols + p.2), p)

def kronContractRight : Product where
  shape s t := ⟨s.rows / t.rows, s.cols / t.cols⟩
  terms s t k l := (Dense.places t).map fun p =>
    ((p.1 * (s.rows / t.rows) + k, p.2 * (s.cols / t.cols) + l), p)

theorem sumBelow_eq_sum_map (n : Nat) (f : Nat → R) : sumBelow n f = ((List.range n).map f).sum := by
  induction n with
  | zero => rfl
  | succ n ih => rw [sumBelow_succ, List.range_succ, List.map_append, List.sum_append, ih]; simp

theorem mul_eq_apply (x y : Dense R) : x.mul y = matmul.apply x y := by
  unfold Dense.mul apply
  congr 1
  funext i j
  show sumBelow x.cols _ = (((List.range x.cols).map fun k => ((i, k), (k, j))).map _).sum
  rw [sumBelow_eq_sum_map, List.map_map]
  rfl

theorem kron_eq_apply (x y : Dense R) : x.kron y = kron.apply x y := by
  unfold Dense.kron apply
  congr 1
  funext i j
  exact (List.sum_singleton).symm

/-- A sum over the places of the second factor, with a place of the first factor for each of them. -/
theorem sumPlaces_eq_sum_terms (x y : Dense R) (place : Nat × Nat → Nat × Nat) :
    (Dense.sumPlaces y.shape fun i j => x.get (place (i, j)).1 (place (i, j)).2 * y.get i j) =
      (((Dense.places y.shape).map fun p => (place p, p)).map fun t =>
        x.get t.1.1 t.1.2 * y.get t.2.1 t.2.2).sum := by
  rw [Dense.sumPlaces_eq_sum_map, List.map_map]
  rfl

theorem kronContractLeft_eq_apply (x y : Dense R) :
    x.kronContractLeft y = kronContractLeft.apply x y := by
  unfold Dense.kronContractLeft apply
  congr 1
  funext i j
  exact sumPlaces_eq_sum_terms x y fun p => (i * y.rows + p.1, j * y.cols + p.2)

theorem kronContractRight_eq_apply (x y : Dense R) :
    x.kronContractRight y = kronContractRight.apply x y := by
  unfold Dense.kronContractRight apply
  refine congrArg (Dense.ofFn (x.rows / y.rows) (x.cols / y.cols)) ?_
  funext k l
  exact sumPlaces_eq_sum_terms x y fun p =>
    (p.1 * (x.rows / y.rows) + k, p.2 * (x.cols / y.cols) + l)

end Product

end Lyapunov
