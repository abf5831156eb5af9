/-
Blocks: columns of a matrix that stand next to each other, and matrices along the diagonal of a larger
one. A product with a selector takes columns, and two of them put a block at its place.
-/
import Mathlib.Algebra.Algebra.Basic
import Lyapunov.Proofs.Exact.Matrix

namespace Lyapunov

open Finset Matrix

variable {R : Type} [CommRing R]

/-- Some columns of a matrix with `n` rows. -/
structure ColumnBlock (R : Type) (n : Nat) where
  width : Nat
  entries : Matrix (Fin n) (Fin width) R

namespace ColumnBlock

variable {n : Nat}

/-- The product with a block on either side. -/
def project (B : ColumnBlock R n) (P : Matrix (Fin n) (Fin n) R) :
    Matrix (Fin B.width) (Fin B.width) R := B.entriesᵀ * P * B.entries

theorem project_add (B : ColumnBlock R n) (P Q : Matrix (Fin n) (Fin n) R) :
    B.project (P + Q) = B.project P + B.project Q := by
  rw [project, Matrix.mul_add, Matrix.add_mul, project, project]

theorem project_zero (B : ColumnBlock R n) : B.project 0 = 0 := by
  rw [project, Matrix.mul_zero, Matrix.zero_mul]

theorem project_sub (B : ColumnBlock R n) (P Q : Matrix (Fin n) (Fin n) R) :
    B.project (P - Q) = B.project P - B.project Q := by
  rw [project, Matrix.mul_sub, Matrix.sub_mul, project, project]

/-- All columns of the identity. -/
def identity (R : Type) [CommRing R] (n : Nat) : ColumnBlock R n := ⟨n, 1⟩

theorem project_identity (P : Matrix (Fin n) (Fin n) R) : (identity R n).project P = P := by
  have h : (1 : Matrix (Fin n) (Fin n) R)ᵀ * P * (1 : Matrix (Fin n) (Fin n) R) = P := by
    rw [transpose_one, Matrix.one_mul, Matrix.mul_one]
  exact h

end ColumnBlock

namespace Dense

/-! ## Columns -/

/-- The `w` columns from `offset` on; columns past the end are zero. -/
def columns (n : Nat) (d : Dense R) (offset w : Nat) : ColumnBlock R n :=
  ⟨w, .of fun i j => d.get i (offset + j)⟩

/-- The columns from `offset` on in blocks of the given widths. -/
def columnBlocks (n : Nat) (d : Dense R) : Nat → List Nat → List (ColumnBlock R n)
  | _, [] => []
  | offset, w :: widths => d.columns n offset w :: columnBlocks n d (offset + w) widths

theorem map_width_columnBlocks (n : Nat) (d : Dense R) (offset : Nat) (widths : List Nat) :
    (columnBlocks n d offset widths).map (·.width) = widths := by
  induction widths generalizing offset with
  | nil => rfl
  | cons w widths ih => rw [columnBlocks, List.map_cons, ih]; rfl

theorem get_selector {n offset w i k : Nat} (hi : i < n) (hk : k < w) :
    (selector n offset w : Dense R).get i k = if i = offset + k then 1 else 0 := get_ofFn _ hi hk

/-- A map that keeps zero and one keeps the entries of a selector. -/
theorem get_selector_map {α : Type} [Zero α] [One α] {φ : α → R} (hzero : φ 0 = 0) (hone : φ 1 = 1)
    (n offset w i j : Nat) :
    (selector n offset w : Dense R).get i j = φ ((selector n offset w).get i j) := by
  simp only [selector, get_ofFn_eq_ite]
  split
  · rw [apply_ite φ, hone, hzero]
  · rw [hzero]

/-- A row of a selector picks one term of a sum. -/
theorem sum_selector {n offset w i : Nat} (hi : i < n) {f : Nat → R} (hf : ∀ k, w ≤ k → f k = 0) :
    ∑ k ∈ range w, (selector n offset w).get i k * f k = if offset ≤ i then f (i - offset) else 0 := by
  rw [sum_congr rfl fun k hk => by rw [get_selector hi (mem_range.1 hk), ite_mul, one_mul, zero_mul]]
  split
  · rename_i hle
    by_cases hlt : i - offset < w
    · rw [sum_eq_single_of_mem _ (mem_range.2 hlt) fun k _ hk => if_neg (by omega), if_pos (by omega)]
    · rw [hf _ (Nat.not_lt.1 hlt)]
      exact sum_eq_zero fun k hk => if_neg (by have := mem_range.1 hk; omega)
  · exact sum_eq_zero fun k _ => if_neg (by omega)

/-- A product with a selector takes columns. -/
theorem mul_selector (d : Dense R) {n : Nat} (hn : d.rows = n) (offset w : Nat) :
    d.mul (selector d.cols offset w) = ofMatrix (d.columns n offset w).entries := by
  refine eq_ofMatrix (by rw [← hn]; rfl) fun i j => ?_
  have hj : j.val < w := j.2
  have hterm (k : Nat) (hk : k ∈ range d.cols) :
      d.get i k * (selector d.cols offset w).get k j = if offset + j = k then d.get i k else 0 := by
    rw [get_selector (mem_range.1 hk) hj, mul_ite, mul_one, mul_zero]
    simp only [eq_comm]
  rw [get_mul', sum_congr rfl hterm, sum_ite_eq]
  split
  · rfl
  · rename_i hlt
    exact (get_of_cols_le (Nat.not_lt.1 fun h => hlt (mem_range.2 h)) _).symm

/-! ## The diagonal -/

/-- The block `b` in a matrix of the shape `s`, with its corner in row `row` and column `col`. -/
def placed (s : Shape) (row col : Nat) (b : Dense R) : Dense R :=
  ofFn s.rows s.cols fun i j => if row ≤ i ∧ col ≤ j then b.get (i - row) (j - col) else 0

@[simp] theorem shape_placed (s : Shape) (row col : Nat) (b : Dense R) : (placed s row col b).shape = s := rfl

/-- A product with selectors puts a block at its place. -/
theorem selector_mul_selector (s : Shape) (row col : Nat) (b : Dense R) :
    (selector s.rows row b.rows).mul (b.mul (selector s.cols col b.cols).transpose) =
      placed s row col b := by
  refine ext_get rfl rfl fun i j hi hj => ?_
  have hi : i < s.rows := hi
  have hj : j < s.cols := hj
  have hrow (k : Nat) : (b.mul (selector s.cols col b.cols).transpose).get k j =
      if col ≤ j then b.get k (j - col) else 0 := by
    rw [get_mul', ← sum_selector hj fun l hl => get_of_cols_le hl k]
    exact sum_congr rfl fun l _ => by rw [get_transpose, mul_comm]
  have hzero (k : Nat) (hk : b.rows ≤ k) : (b.mul (selector s.cols col b.cols).transpose).get k j = 0 :=
    get_of_rows_le (m := b.mul _) hk j
  rw [get_mul', placed, get_ofFn _ hi hj]
  show ∑ k ∈ range b.rows, _ = _
  rw [sum_selector hi hzero, hrow]
  by_cases hri : row ≤ i <;> by_cases hcj : col ≤ j <;> simp [hri, hcj]

/-- The matrix with the given blocks along the diagonal, and zeros elsewhere. -/
def blockDiagonal : List (Dense R) → Dense R
  | [] => zero ⟨0, 0⟩
  | b :: bs =>
    let rest := blockDiagonal bs
    ofFn (b.rows + rest.rows) (b.cols + rest.cols) fun i j =>
      if i < b.rows ∧ j < b.cols then b.get i j
      else if b.rows ≤ i ∧ b.cols ≤ j then rest.get (i - b.rows) (j - b.cols)
      else 0

theorem rows_blockDiagonal_cons (b : Dense R) (bs : List (Dense R)) :
    (blockDiagonal (b :: bs)).rows = b.rows + (blockDiagonal bs).rows := rfl

theorem cols_blockDiagonal_cons (b : Dense R) (bs : List (Dense R)) :
    (blockDiagonal (b :: bs)).cols = b.cols + (blockDiagonal bs).cols := rfl

theorem get_blockDiagonal_cons (b : Dense R) (bs : List (Dense R)) (i j : Nat) :
    (blockDiagonal (b :: bs)).get i j = b.get i j +
      if b.rows ≤ i ∧ b.cols ≤ j then (blockDiagonal bs).get (i - b.rows) (j - b.cols) else 0 := by
  rw [blockDiagonal, get_ofFn_eq_ite]
  by_cases hb : i < b.rows ∧ j < b.cols
  · rw [if_pos (by omega), if_pos hb, if_neg (by omega), add_zero]
  · rw [get_outside hb, zero_add]
    by_cases hrest : b.rows ≤ i ∧ b.cols ≤ j
    · rw [if_pos hrest, if_neg hb]
      split
      · rfl
      · exact (get_outside (by omega)).symm
    · rw [if_neg hrest, if_neg hb, ite_self]

theorem blockDiagonal_singleton (b : Dense R) : blockDiagonal [b] = b := by
  refine ext_shape rfl fun i j => ?_
  rw [get_blockDiagonal_cons, blockDiagonal, get_zero, ite_self, add_zero]

/-- Two blocks at their places, of which the second contains all further ones. -/
theorem placed_add_placed (s : Shape) (row col : Nat) (b : Dense R) (bs : List (Dense R)) :
    (placed s row col b).add (placed s (row + b.rows) (col + b.cols) (blockDiagonal bs)) =
      placed s row col (blockDiagonal (b :: bs)) := by
  refine ext_get rfl rfl fun i j hi hj => ?_
  have hi : i < s.rows := hi
  have hj : j < s.cols := hj
  have hsum := get_add_of_shape (m := placed s row col b)
    (n := placed s (row + b.rows) (col + b.cols) (blockDiagonal bs)) rfl i j
  rw [hsum]
  simp only [placed, get_ofFn _ hi hj, get_blockDiagonal_cons]
  by_cases h : row ≤ i ∧ col ≤ j
  · have hrest : row + b.rows ≤ i ∧ col + b.cols ≤ j ↔ b.rows ≤ i - row ∧ b.cols ≤ j - col := by omega
    simp only [if_pos h, hrest, Nat.sub_sub]
  · rw [if_neg h, if_neg h, if_neg (by omega), add_zero]

/-- Within its own shape a matrix in the first row and column is the whole. -/
theorem placed_blockDiagonal (bs : List (Dense R)) :
    placed (blockDiagonal bs).shape 0 0 (blockDiagonal bs) = blockDiagonal bs := by
  refine ext_get rfl rfl fun i j hi hj => ?_
  have hi : i < (blockDiagonal bs).shape.rows := hi
  have hj : j < (blockDiagonal bs).shape.cols := hj
  rw [placed, get_ofFn _ hi hj, if_pos ⟨Nat.zero_le i, Nat.zero_le j⟩, Nat.sub_zero, Nat.sub_zero]

/-- The blocks at their places along the diagonal, the first one with its corner at `row` and `col`. -/
def placements (s : Shape) : Nat → Nat → List (Dense R) → List (Dense R)
  | _, _, [] => []
  | row, col, b :: bs => placed s row col b :: placements s (row + b.rows) (col + b.cols) bs

theorem shape_of_mem_placements {s : Shape} {row col : Nat} {bs : List (Dense R)} :
    ∀ b ∈ placements s row col bs, b.shape = s := by
  induction bs generalizing row col with
  | nil => intro b hb; cases hb
  | cons c bs ih =>
    intro b hb
    rcases List.mem_cons.1 hb with rfl | hb
    exacts [rfl, ih b hb]

/-- The blocks at their places, added up. -/
theorem foldl_add_placements {s : Shape} {m : Dense R} (hm : m.shape = s) (row col : Nat)
    (bs : List (Dense R)) :
    (placements s row col bs).foldl add m = m.add (placed s row col (blockDiagonal bs)) := by
  induction bs generalizing m row col with
  | nil =>
    have hzero : placed s row col (blockDiagonal ([] : List (Dense R))) = zero m.shape := by
      refine ext_get (congrArg Shape.rows hm.symm) (congrArg Shape.cols hm.symm) fun i j hi hj => ?_
      have hi : i < s.rows := hi
      have hj : j < s.cols := hj
      rw [placed, get_ofFn _ hi hj, blockDiagonal, get_zero, get_zero, ite_self]
    rw [hzero, add_zero']
    rfl
  | cons b bs ih =>
    have hplaced (r c : Nat) (d e : Dense R) : (placed s row col d).shape = (placed s r c e).shape := rfl
    rw [placements, List.foldl_cons, ih (m := m.add _) hm, add_assoc' hm (hplaced _ _ _ _),
      placed_add_placed]

/-- The block-diagonal matrix is the sum of the blocks at their places. -/
theorem foldl_add_placements_cons (b : Dense R) (bs : List (Dense R)) :
    (placements (blockDiagonal (b :: bs)).shape (0 + b.rows) (0 + b.cols) bs).foldl add
      (placed (blockDiagonal (b :: bs)).shape 0 0 b) = blockDiagonal (b :: bs) := by
  rw [foldl_add_placements (shape_placed _ _ _ _), placed_add_placed, placed_blockDiagonal]

end Dense

end Lyapunov
