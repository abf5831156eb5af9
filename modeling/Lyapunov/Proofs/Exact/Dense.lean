/-
The entries of matrices over a commutative ring. Since an entry outside a matrix is zero, the
formulas for the entries of sums, products and contractions hold at all places, and two matrices of
one shape with the same entries are equal.
-/
import Mathlib.Algebra.BigOperators.Ring.Finset
import Mathlib.Tactic.Ring
import Lyapunov.Dense.Kronecker
import Lyapunov.Proofs.Exact.Scalar

namespace Lyapunov.Dense

open Finset

section Shape

variable {α β : Type}

theorem shape_eq {m n : Dense α} (hr : m.rows = n.rows) (hc : m.cols = n.cols) : m.shape = n.shape := by
  unfold shape; rw [hr, hc]

theorem rows_eq {m : Dense α} {n : Dense β} (h : m.shape = n.shape) : m.rows = n.rows :=
  congrArg Shape.rows h

theorem cols_eq {m : Dense α} {n : Dense β} (h : m.shape = n.shape) : m.cols = n.cols :=
  congrArg Shape.cols h

theorem rows_of_shape {m : Dense α} {r c : Nat} (h : m.shape = ⟨r, c⟩) : m.rows = r :=
  congrArg Shape.rows h

theorem cols_of_shape {m : Dense α} {r c : Nat} (h : m.shape = ⟨r, c⟩) : m.cols = c :=
  congrArg Shape.cols h

end Shape

section Zero

variable {α : Type} [Zero α]

/-- Two matrices of one shape with the same entries are equal. -/
theorem ext_shape {m n : Dense α} (hs : m.shape = n.shape) (h : ∀ i j, m.get i j = n.get i j) : m = n :=
  ext_get (rows_eq hs) (cols_eq hs) fun i j _ _ => h i j

theorem get_outside {m : Dense α} {i j : Nat} (h : ¬ (i < m.rows ∧ j < m.cols)) : m.get i j = 0 := by
  by_cases hi : i < m.rows
  · exact get_of_cols_le (Nat.not_lt.1 fun hj => h ⟨hi, hj⟩) i
  · exact get_of_rows_le (Nat.not_lt.1 hi) j

theorem get_eq_entry {m : Dense α} {i : Nat} (j : Nat) (hi : i < m.rows) :
    m.get i j = m.entry (i + j * m.rows) := if_pos hi

@[simp] theorem shape_zero (s : Shape) : (zero s : Dense α).shape = s := rfl

@[simp] theorem rows_zero (s : Shape) : (zero s : Dense α).rows = s.rows := rfl

@[simp] theorem cols_zero (s : Shape) : (zero s : Dense α).cols = s.cols := rfl

@[simp] theorem entry_zero (s : Shape) (k : Nat) : (zero s : Dense α).entry k = 0 := by
  rw [entry_eq_get, get_zero]

@[simp] theorem shape_transpose (m : Dense α) : m.transpose.shape = m.shape.transpose := rfl

@[simp] theorem rows_transpose (m : Dense α) : m.transpose.rows = m.cols := rfl

@[simp] theorem cols_transpose (m : Dense α) : m.transpose.cols = m.rows := rfl

@[simp] theorem shape_reshape (m : Dense α) (s : Shape) : (m.reshape s).shape = s := rfl

@[simp] theorem transpose_transpose (m : Dense α) : m.transpose.transpose = m :=
  ext_shape rfl fun i j => by rw [get_transpose, get_transpose]

/-- A matrix under its own shape is itself. -/
theorem reshape_shape (m : Dense α) : m.reshape m.shape = m := by
  refine ext_get rfl rfl fun i j hi hj => ?_
  have hi' : i < m.rows := hi
  rw [get_eq_entry j hi']
  exact get_ofFn (fun i j => m.entry (i + j * m.rows)) hi hj

end Zero

section Ring

variable {R : Type} [CommRing R]

@[simp] theorem shape_add (m n : Dense R) : (m.add n).shape = m.shape := rfl

@[simp] theorem shape_neg (m : Dense R) : m.neg.shape = m.shape := rfl

@[simp] theorem shape_scale (c : R) (m : Dense R) : (m.scale c).shape = m.shape := rfl

@[simp] theorem shape_mul (m n : Dense R) : (m.mul n).shape = ⟨m.rows, n.cols⟩ := rfl

@[simp] theorem rows_mul (m n : Dense R) : (m.mul n).rows = m.rows := rfl

@[simp] theorem cols_mul (m n : Dense R) : (m.mul n).cols = n.cols := rfl

@[simp] theorem shape_kron (a b : Dense R) :
    (a.kron b).shape = ⟨a.rows * b.rows, a.cols * b.cols⟩ := rfl

@[simp] theorem shape_kronContractLeft (g b : Dense R) :
    (g.kronContractLeft b).shape = ⟨g.rows / b.rows, g.cols / b.cols⟩ := rfl

@[simp] theorem shape_kronContractRight (g a : Dense R) :
    (g.kronContractRight a).shape = ⟨g.rows / a.rows, g.cols / a.cols⟩ := rfl

/-! ## Entries -/

theorem get_add_of_shape {m n : Dense R} (h : m.shape = n.shape) (i j : Nat) :
    (m.add n).get i j = m.get i j + n.get i j := by
  unfold add
  rw [get_ofFn_eq_ite]
  split
  · rfl
  · rename_i hij
    rw [get_outside hij, get_outside (by rwa [← rows_eq h, ← cols_eq h]), add_zero]

@[simp] theorem get_neg' (m : Dense R) (i j : Nat) : m.neg.get i j = -m.get i j := by
  unfold neg
  rw [get_ofFn_eq_ite]
  split
  · rfl
  · rename_i hij; rw [get_outside hij, neg_zero]

@[simp] theorem get_scale' (c : R) (m : Dense R) (i j : Nat) : (m.scale c).get i j = m.get i j * c := by
  unfold scale
  rw [get_ofFn_eq_ite]
  split
  · rfl
  · rename_i hij; rw [get_outside hij, zero_mul]

theorem get_mul' (m n : Dense R) (i j : Nat) :
    (m.mul n).get i j = ∑ k ∈ range m.cols, m.get i k * n.get k j := by
  unfold mul
  rw [get_ofFn_eq_ite, sumBelow_eq_sum]
  split
  · rfl
  · rename_i hij
    symm
    refine sum_eq_zero fun k _ => ?_
    by_cases hi : i < m.rows
    · rw [get_of_cols_le (Nat.not_lt.1 fun hj => hij ⟨hi, hj⟩) k, mul_zero]
    · rw [get_of_rows_le (Nat.not_lt.1 hi), zero_mul]

theorem get_kron (a b : Dense R) (i j : Nat) :
    (a.kron b).get i j = a.get (i / b.rows) (j / b.cols) * b.get (i % b.rows) (j % b.cols) := by
  unfold kron
  rw [get_ofFn_eq_ite]
  split
  · rfl
  · rename_i hij
    symm
    by_cases hi : i < a.rows * b.rows
    · have hj : a.cols * b.cols ≤ j := Nat.not_lt.1 fun hj => hij ⟨hi, hj⟩
      rcases Nat.eq_zero_or_pos b.cols with h0 | h0
      · rw [get_of_cols_le (by omega) (i % b.rows), mul_zero]
      · rw [get_of_cols_le ((Nat.le_div_iff_mul_le h0).2 hj) (i / b.rows), zero_mul]
    · have hi : a.rows * b.rows ≤ i := Nat.not_lt.1 hi
      rcases Nat.eq_zero_or_pos b.rows with h0 | h0
      · rw [get_of_rows_le (m := b) (by omega), mul_zero]
      · rw [get_of_rows_le (m := a) ((Nat.le_div_iff_mul_le h0).2 hi), zero_mul]

/-- The entry of a Kronecker product in a row and a column of a block. -/
theorem get_kron_block (a b : Dense R) {k l : Nat} (i j : Nat) (hk : k < b.rows) (hl : l < b.cols) :
    (a.kron b).get (i * b.rows + k) (j * b.cols + l) = a.get i j * b.get k l := by
  have hr : 0 < b.rows := by omega
  have hc : 0 < b.cols := by omega
  rw [get_kron, Nat.mul_add_mod_self_right, Nat.mul_add_mod_self_right, Nat.mod_eq_of_lt hk,
    Nat.mod_eq_of_lt hl, Nat.mul_comm i, Nat.mul_comm j, Nat.mul_add_div hr, Nat.mul_add_div hc,
    Nat.div_eq_of_lt hk, Nat.div_eq_of_lt hl, Nat.add_zero, Nat.add_zero]

theorem sumPlaces_eq_sum_map (s : Shape) (f : Nat → Nat → R) :
    sumPlaces s f = ((places s).map fun p => f p.1 p.2).sum := by
  unfold sumPlaces
  rw [List.sum_eq_foldl, List.foldl_map]

/-- In exact arithmetic the order of the places does not matter. -/
theorem sumPlaces_eq_sum (s : Shape) (f : Nat → Nat → R) :
    sumPlaces s f = ∑ j ∈ range s.cols, ∑ i ∈ range s.rows, f i j := by
  rw [sumPlaces_eq_sum_map, places, List.map_flatMap, List.flatMap_def, List.sum_flatten, List.map_map]
  simp only [List.map_map, Function.comp_def]
  rfl

theorem get_kronContractLeft (g b : Dense R) {i j : Nat} (hi : i < g.rows / b.rows)
    (hj : j < g.cols / b.cols) :
    (g.kronContractLeft b).get i j =
      ∑ l ∈ range b.cols, ∑ k ∈ range b.rows, g.get (i * b.rows + k) (j * b.cols + l) * b.get k l :=
  (get_ofFn _ hi hj).trans (sumPlaces_eq_sum b.shape _)

theorem get_kronContractRight (g a : Dense R) {k l : Nat} (hk : k < g.rows / a.rows)
    (hl : l < g.cols / a.cols) :
    (g.kronContractRight a).get k l =
      ∑ j ∈ range a.cols, ∑ i ∈ range a.rows,
        g.get (i * (g.rows / a.rows) + k) (j * (g.cols / a.cols) + l) * a.get i j :=
  (get_ofFn _ hk hl).trans (sumPlaces_eq_sum a.shape _)

/-! ## Sums and zero -/

theorem add_comm' {m n : Dense R} (h : m.shape = n.shape) : m.add n = n.add m :=
  ext_shape h fun i j => by rw [get_add_of_shape h, get_add_of_shape h.symm, add_comm]

theorem add_assoc' {a b c : Dense R} (hab : a.shape = b.shape) (hbc : b.shape = c.shape) :
    (a.add b).add c = a.add (b.add c) := by
  have hleft : (a.add b).shape = c.shape := hab.trans hbc
  have hright : a.shape = (b.add c).shape := hab
  refine ext_shape rfl fun i j => ?_
  rw [get_add_of_shape hleft, get_add_of_shape hab, get_add_of_shape hright, get_add_of_shape hbc,
    add_assoc]

theorem add_zero' (m : Dense R) : m.add (zero m.shape) = m :=
  ext_shape rfl fun i j => by
    rw [get_add_of_shape (shape_zero _).symm, get_zero, add_zero]

theorem zero_add' (m : Dense R) : (zero m.shape).add m = m :=
  ext_shape rfl fun i j => by
    rw [get_add_of_shape (shape_zero _), get_zero, zero_add]

/-- What is taken away from a matrix may be taken away in another order. -/
theorem add_neg_add_neg {d a b c : Dense R} (ha : a.shape = d.shape) (hb : b.shape = d.shape)
    (hc : c.shape = d.shape) : (d.add (a.add b).neg).add c.neg = (d.add (b.add c).neg).add a.neg := by
  have hleft : d.shape = (a.add b).neg.shape := ha.symm
  have hleft' : (d.add (a.add b).neg).shape = c.neg.shape := hc.symm
  have hright : d.shape = (b.add c).neg.shape := hb.symm
  have hright' : (d.add (b.add c).neg).shape = a.neg.shape := ha.symm
  refine ext_shape (by rw [shape_add, shape_add, shape_add, shape_add]) fun i j => ?_
  rw [get_add_of_shape hleft', get_add_of_shape hleft, get_add_of_shape hright', get_add_of_shape hright,
    get_neg', get_neg', get_neg', get_neg', get_add_of_shape (ha.trans hb.symm),
    get_add_of_shape (hb.trans hc.symm)]
  ring

/-- A summand is what the other one leaves of the sum. -/
theorem add_eq_iff {m n l : Dense R} (hn : n.shape = m.shape) (hl : l.shape = m.shape) :
    m.add n = l ↔ n = l.add m.neg := by
  have hneg (i j : Nat) : (l.add m.neg).get i j = l.get i j + m.neg.get i j :=
    get_add_of_shape (n := m.neg) hl i j
  have hadd (i j : Nat) : (m.add n).get i j = m.get i j + n.get i j := get_add_of_shape hn.symm i j
  constructor
  · intro h
    refine ext_shape (hn.trans hl.symm) fun i j => ?_
    rw [hneg, get_neg', ← h, hadd, add_neg_cancel_comm]
  · intro h
    refine ext_shape hl.symm fun i j => ?_
    rw [hadd, h, hneg, get_neg', add_comm (l.get i j), add_neg_cancel_left]

theorem zero_add_zero (s : Shape) : (zero s : Dense R).add (zero s) = zero s := add_zero' (zero s)

theorem neg_zero' (s : Shape) : (zero s : Dense R).neg = zero s :=
  ext_shape rfl fun i j => by rw [get_neg', get_zero, neg_zero]

theorem scale_zero (c : R) (s : Shape) : (zero s : Dense R).scale c = zero s :=
  ext_shape rfl fun i j => by rw [get_scale', get_zero, zero_mul]

theorem transpose_zero (s : Shape) : (zero s : Dense R).transpose = zero s.transpose :=
  ext_shape rfl fun i j => by rw [get_transpose, get_zero, get_zero]

theorem reshape_zero (s t : Shape) : (zero s : Dense R).reshape t = zero t := by
  unfold reshape zero
  congr 1
  funext i j
  exact entry_zero s _

/-! ## Products of matrices -/

theorem mul_assoc' (a b c : Dense R) : (a.mul b).mul c = a.mul (b.mul c) := by
  refine ext_shape rfl fun i j => ?_
  simp only [get_mul', cols_mul, sum_mul, mul_sum]
  rw [sum_comm]
  simp only [mul_assoc]

theorem transpose_mul {a b : Dense R} (h : a.cols = b.rows) :
    (a.mul b).transpose = b.transpose.mul a.transpose := by
  refine ext_shape rfl fun i j => ?_
  rw [get_transpose, get_mul', get_mul', h]
  refine sum_congr rfl fun k _ => ?_
  rw [get_transpose, get_transpose, mul_comm]

theorem get_identity {n i : Nat} (j : Nat) (hi : i < n) :
    (identity n : Dense R).get i j = if i = j then 1 else 0 := by
  unfold identity
  rw [get_ofFn_eq_ite]
  split
  · rfl
  · rename_i h
    have hj : ¬ j < n := fun hj => h ⟨hi, hj⟩
    rw [if_neg (by omega)]

theorem mul_identity (m : Dense R) : m.mul (identity m.cols) = m := by
  refine ext_get rfl rfl fun i j _ hj => ?_
  have hj : j < m.cols := hj
  rw [get_mul', sum_congr rfl fun k hk => by rw [get_identity j (mem_range.1 hk), mul_ite, mul_one,
    mul_zero], sum_ite_eq' , if_pos (mem_range.2 hj)]

@[simp] theorem transpose_identity (n : Nat) : (identity n : Dense R).transpose = identity n := by
  refine ext_get rfl rfl fun i j hi hj => ?_
  have hi : i < n := hi
  have hj : j < n := hj
  rw [get_transpose, get_identity _ hj, get_identity _ hi]
  simp only [eq_comm]

theorem identity_mul (m : Dense R) : (identity m.rows).mul m = m := by
  have h := congrArg transpose (mul_identity m.transpose)
  rwa [transpose_mul rfl, transpose_transpose, transpose_identity] at h

theorem mul_add' {a b : Dense R} (m : Dense R) (h : a.shape = b.shape) :
    m.mul (a.add b) = (m.mul a).add (m.mul b) := by
  have hs : (m.mul a).shape = (m.mul b).shape := by rw [shape_mul, shape_mul, cols_eq h]
  refine ext_shape rfl fun i j => ?_
  rw [get_add_of_shape hs, get_mul', get_mul', get_mul', ← Finset.sum_add_distrib]
  exact Finset.sum_congr rfl fun k _ => by rw [get_add_of_shape h, mul_add]

theorem add_mul' {a b : Dense R} (m : Dense R) (h : a.shape = b.shape) :
    (a.add b).mul m = (a.mul m).add (b.mul m) := by
  have hs : (a.mul m).shape = (b.mul m).shape := by rw [shape_mul, shape_mul, rows_eq h]
  refine ext_shape rfl fun i j => ?_
  have hcols : (a.add b).cols = a.cols := rfl
  rw [get_add_of_shape hs, get_mul', get_mul', get_mul', hcols, ← cols_eq h, ← Finset.sum_add_distrib]
  exact Finset.sum_congr rfl fun k _ => by rw [get_add_of_shape h, add_mul]

theorem neg_mul' (m n : Dense R) : m.neg.mul n = (m.mul n).neg :=
  ext_shape rfl fun i j => by
    rw [get_neg', get_mul', get_mul', ← Finset.sum_neg_distrib]
    exact Finset.sum_congr rfl fun k _ => by rw [get_neg', neg_mul]

theorem mul_zero' (m : Dense R) (s : Shape) : m.mul (zero s) = zero ⟨m.rows, s.cols⟩ :=
  ext_shape rfl fun i j => by
    rw [get_mul', get_zero]
    exact sum_eq_zero fun k _ => by rw [get_zero, mul_zero]

end Ring

end Lyapunov.Dense
