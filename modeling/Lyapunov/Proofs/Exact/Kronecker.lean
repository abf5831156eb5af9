/-
The contractions of a Kronecker product. A matrix of `m * p` rows and `n * q` columns is made of
`m * n` blocks of shape `p` by `q`. One contraction takes the inner product of each block with a
matrix of the shape of the blocks, the other adds up the blocks, each times an entry of a matrix with
an entry for each block. With one factor fixed the Kronecker product is linear in the other, and the
contractions are the adjoints of these two maps.
-/
import Lyapunov.Proofs.Exact.Inner

namespace Lyapunov.Dense

open Finset

variable {R : Type} [CommRing R]

/-! ## Blocks -/

/-- Each block of a Kronecker product is the second factor times an entry of the first one. -/
theorem block_kron (a b : Dense R) (i j : Nat) : (a.kron b).block b.shape i j = b.scale (a.get i j) := by
  refine ext_get rfl rfl fun k l hk hl => ?_
  have hk : k < b.rows := hk
  have hl : l < b.cols := hl
  rw [get_block _ _ _ hk hl, get_scale', mul_comm (b.get k l)]
  exact get_kron_block a b i j hk hl

/-- Each entry of the left contraction is the inner product of a block and the second factor. -/
theorem get_kronContractLeft_eq_inner (g b : Dense R) {i j : Nat} (hi : i < g.rows / b.rows)
    (hj : j < g.cols / b.cols) : (g.kronContractLeft b).get i j = (g.block b.shape i j).inner b := by
  rw [get_kronContractLeft g b hi hj, inner, sum_comm]
  refine sum_congr rfl fun k hk => sum_congr rfl fun l hl => ?_
  rw [get_block g i j (s := b.shape) (mem_range.1 hk) (mem_range.1 hl)]
  rfl

/-! ## Contracting a Kronecker product with one of its factors -/

theorem scale_inner (c : R) (a b : Dense R) : (a.scale c).inner b = c * a.inner b := by
  unfold inner
  simp only [get_scale', mul_sum]
  exact sum_congr rfl fun i _ => sum_congr rfl fun j _ => by ring

theorem kronContractLeft_kron (a : Dense R) {b : Dense R} (hr : 0 < b.rows) (hc : 0 < b.cols) :
    (a.kron b).kronContractLeft b = a.scale (b.inner b) := by
  have hrows : (a.kron b).rows / b.rows = a.rows := Nat.mul_div_cancel _ hr
  have hcols : (a.kron b).cols / b.cols = a.cols := Nat.mul_div_cancel _ hc
  refine ext_get hrows hcols fun i j hi hj => ?_
  rw [get_kronContractLeft_eq_inner _ _ hi hj, block_kron, scale_inner, get_scale']

theorem kronContractRight_kron {a : Dense R} (b : Dense R) (hr : 0 < a.rows) (hc : 0 < a.cols) :
    (a.kron b).kronContractRight a = b.scale (a.inner a) := by
  have hblocks : (⟨(a.kron b).rows / a.rows, (a.kron b).cols / a.cols⟩ : Shape) = b.shape := by
    rw [show (a.kron b).rows / a.rows = b.rows from Nat.mul_div_cancel_left _ hr,
      show (a.kron b).cols / a.cols = b.cols from Nat.mul_div_cancel_left _ hc]
    rfl
  have hloop : (a.kron b).kronContractRight a =
      addUp b.shape a.shape fun i j => (b.scale (a.get i j)).scale (a.get i j) := by
    rw [kronContractRight_eq_addUp _ _ hblocks]
    simp only [block_kron]
  have hshape : ((a.kron b).kronContractRight a).shape = b.shape := hblocks
  refine ext_get (rows_eq hshape) (cols_eq hshape) fun k l hk hl => ?_
  rw [rows_eq hshape] at hk
  rw [cols_eq hshape] at hl
  -- every place adds the entry of the second factor times a square of the first one
  rw [hloop, get_addUp hk hl, sumPlaces_eq_sum, get_scale', inner, mul_sum, sum_comm]
  refine sum_congr rfl fun i _ => ?_
  rw [mul_sum]
  refine sum_congr rfl fun j _ => ?_
  rw [get_scale', get_scale', mul_assoc]

/-- The two contractions are the adjoints of the Kronecker product in its first and in its second
factor. Contracting a Kronecker product with one factor scales the other one by the squared
Frobenius norm. -/
theorem kronContract_adjoint {m n p q : Nat} (hm : 0 < m) (hn : 0 < n) (hp : 0 < p) (hq : 0 < q)
    {a b g : Dense R} (ha : a.shape = ⟨m, n⟩) (hb : b.shape = ⟨p, q⟩) (hg : g.shape = ⟨m * p, n * q⟩) :
    (g.kronContractLeft b).shape = ⟨m, n⟩ ∧
    (g.kronContractRight a).shape = ⟨p, q⟩ ∧
    g.inner (a.kron b) = (g.kronContractLeft b).inner a ∧
    g.inner (a.kron b) = (g.kronContractRight a).inner b ∧
    (a.kron b).kronContractLeft b = a.scale (b.inner b) ∧
    (a.kron b).kronContractRight a = b.scale (a.inner a) := by
  have hgab : g.shape = ⟨a.rows * b.rows, a.cols * b.cols⟩ := by
    rw [hg, rows_of_shape ha, rows_of_shape hb, cols_of_shape ha, cols_of_shape hb]
  refine ⟨?_, ?_, inner_kron_left hgab, inner_kron_right hgab, kronContractLeft_kron a ?_ ?_,
    kronContractRight_kron b ?_ ?_⟩
  · rw [shape_kronContractLeft, rows_of_shape hg, cols_of_shape hg, rows_of_shape hb, cols_of_shape hb,
      Nat.mul_div_cancel _ hp, Nat.mul_div_cancel _ hq]
  · rw [shape_kronContractRight, rows_of_shape hg, cols_of_shape hg, rows_of_shape ha, cols_of_shape ha,
      Nat.mul_div_cancel_left _ hm, Nat.mul_div_cancel_left _ hn]
  · rwa [rows_of_shape hb]
  · rwa [cols_of_shape hb]
  · rwa [rows_of_shape ha]
  · rwa [cols_of_shape ha]

/-- A factor whose squared norm is 30. -/
def oneToFour : Dense ℚ := ofRowMajor 2 2 #[1, 2, 3, 4]

/-- A factor whose squared norm is 29/4. -/
def twoByThree : Dense ℚ := ofRowMajor 2 3 #[1, 0, -1, 2, 1, 1 / 2]

theorem kronContract_adjoint_rationals :
    (oneToFour.kron twoByThree).kronContractLeft twoByThree = oneToFour.scale (29 / 4) ∧
    (oneToFour.kron twoByThree).kronContractRight oneToFour = twoByThree.scale 30 := by
  obtain ⟨-, -, -, -, hleft, hright⟩ := kronContract_adjoint (m := 2) (n := 2) (p := 2) (q := 3)
    (a := oneToFour) (b := twoByThree) (g := oneToFour.kron twoByThree)
    (by decide) (by decide) (by decide) (by decide) rfl rfl rfl
  have hb : twoByThree.inner twoByThree = 29 / 4 := by decide +kernel
  have ha : oneToFour.inner oneToFour = 30 := by decide +kernel
  rw [hb] at hleft
  rw [ha] at hright
  exact ⟨hleft, hright⟩

end Lyapunov.Dense
