/-
The inner product of matrices, entry by entry, and the adjoints of the operations: what an operation
does to the second matrix of an inner product can be done to the first one instead.
-/
import Lyapunov.Proofs.Exact.Product

namespace Lyapunov.Dense

open Finset

variable {R : Type} [CommRing R]

/-- The sum of the products of entries in the same place. -/
def inner (a b : Dense R) : R := ∑ i ∈ range b.rows, ∑ j ∈ range b.cols, a.get i j * b.get i j

/-- The inner products of matrices in the same place, added up. -/
def innerSum (as bs : List (Dense R)) : R := (List.zipWith inner as bs).sum

@[simp] theorem inner_zero (a : Dense R) (s : Shape) : a.inner (zero s) = 0 :=
  sum_eq_zero fun i _ => sum_eq_zero fun j _ => by rw [get_zero, mul_zero]

@[simp] theorem zero_inner (s : Shape) (b : Dense R) : (zero s).inner b = 0 :=
  sum_eq_zero fun i _ => sum_eq_zero fun j _ => by rw [get_zero, zero_mul]

theorem inner_comm {a b : Dense R} (h : a.shape = b.shape) : a.inner b = b.inner a := by
  unfold inner
  rw [rows_eq h, cols_eq h]
  exact sum_congr rfl fun i _ => sum_congr rfl fun j _ => mul_comm _ _

theorem inner_add {a b c : Dense R} (h : b.shape = c.shape) :
    a.inner (b.add c) = a.inner b + a.inner c := by
  have hc : a.inner c = ∑ i ∈ range b.rows, ∑ j ∈ range b.cols, a.get i j * c.get i j := by
    unfold inner
    rw [rows_eq h, cols_eq h]
  rw [hc, inner, inner, ← sum_add_distrib]
  refine sum_congr rfl fun i _ => ?_
  rw [← sum_add_distrib]
  exact sum_congr rfl fun j _ => by rw [get_add_of_shape h, mul_add]

theorem add_inner {a b c : Dense R} (h : a.shape = b.shape) :
    (a.add b).inner c = a.inner c + b.inner c := by
  unfold inner
  rw [← sum_add_distrib]
  refine sum_congr rfl fun i _ => ?_
  rw [← sum_add_distrib]
  exact sum_congr rfl fun j _ => by rw [get_add_of_shape h, add_mul]

theorem inner_neg (a b : Dense R) : a.inner b.neg = a.neg.inner b :=
  sum_congr rfl fun i _ => sum_congr rfl fun j _ => by rw [get_neg', get_neg', mul_neg, neg_mul]

theorem neg_inner (a b : Dense R) : a.neg.inner b = -a.inner b := by
  unfold inner
  simp only [get_neg', neg_mul, sum_neg_distrib]

theorem inner_scale (c : R) (a b : Dense R) : a.inner (b.scale c) = (a.scale c).inner b :=
  sum_congr rfl fun i _ => sum_congr rfl fun j _ => by rw [get_scale', get_scale']; ring

theorem inner_transpose (a b : Dense R) : a.inner b.transpose = a.transpose.inner b := by
  unfold inner
  rw [sum_comm]
  exact sum_congr rfl fun i _ => sum_congr rfl fun j _ => by rw [get_transpose, get_transpose]

/-- The inner product in column order. -/
theorem inner_eq_sum_entry {a b : Dense R} (h : a.rows = b.rows) :
    a.inner b = ∑ k ∈ range (b.cols * b.rows), a.entry k * b.entry k := by
  rw [sum_range_mul, inner, sum_comm]
  refine sum_congr rfl fun j _ => sum_congr rfl fun i hi => ?_
  have hi := mem_range.1 hi
  rw [get_eq_entry j (h ▸ hi), get_eq_entry j hi, h, Nat.add_comm]

theorem inner_reshape {a b : Dense R} {s : Shape} (ha : a.shape = s) (hs : b.shape.size = s.size) :
    a.inner (b.reshape s) = (a.reshape b.shape).inner b := by
  rw [inner_eq_sum_entry (congrArg Shape.rows ha), inner_eq_sum_entry (a := a.reshape b.shape) (b := b) rfl]
  have hsize : s.cols * s.rows = b.cols * b.rows := by
    rw [Nat.mul_comm, Nat.mul_comm b.cols]; exact hs.symm
  refine sum_congr (congrArg range hsize) fun k hk => ?_
  have hk : k < s.cols * s.rows := by rw [hsize]; exact mem_range.1 hk
  rw [entry_reshape (by rwa [Shape.size, Nat.mul_comm]),
    entry_reshape (by rwa [hs, Shape.size, Nat.mul_comm])]

/-! ## Matrices from their inner products -/

/-- The matrix with a one in row `i` and column `j`, and zeros elsewhere. -/
def unit (s : Shape) (i j : Nat) : Dense R :=
  ofFn s.rows s.cols fun k l => if k = i ∧ l = j then 1 else 0

theorem inner_unit (a : Dense R) {s : Shape} {i j : Nat} (hi : i < s.rows) (hj : j < s.cols) :
    a.inner (unit s i j) = a.get i j := by
  have hterm (k l : Nat) (hk : k ∈ range s.rows) (hl : l ∈ range s.cols) :
      a.get k l * (unit s i j).get k l = if k = i ∧ l = j then a.get k l else 0 := by
    rw [unit, get_ofFn _ (mem_range.1 hk) (mem_range.1 hl), mul_ite, mul_one, mul_zero]
  show ∑ k ∈ range s.rows, ∑ l ∈ range s.cols, _ = _
  rw [sum_congr rfl fun k hk => sum_congr rfl fun l hl => hterm k l hk hl,
    sum_eq_single_of_mem i (mem_range.2 hi) fun k _ hk => sum_eq_zero fun l _ => if_neg fun h => hk h.1,
    sum_eq_single_of_mem j (mem_range.2 hj) fun l _ hl => if_neg fun h => hl h.2, if_pos ⟨rfl, rfl⟩]

/-- Matrices with the same inner products are equal. -/
theorem eq_of_inner {a b : Dense R} (hs : a.shape = b.shape)
    (h : ∀ d : Dense R, d.shape = a.shape → a.inner d = b.inner d) : a = b := by
  refine ext_get (rows_eq hs) (cols_eq hs) fun i j hi hj => ?_
  have hi : i < a.shape.rows := hi
  have hj : j < a.shape.cols := hj
  rw [← inner_unit a hi hj, h (unit a.shape i j) rfl, inner_unit b hi hj]

theorem innerSum_cons (a b : Dense R) (as bs : List (Dense R)) :
    innerSum (a :: as) (b :: bs) = a.inner b + innerSum as bs := rfl

theorem innerSum_zeros (as : List (Dense R)) (ss : List Shape) : innerSum as (ss.map zero) = 0 := by
  induction as generalizing ss with
  | nil => rfl
  | cons a as ih =>
    cases ss with
    | nil => rfl
    | cons s ss => rw [List.map_cons, innerSum_cons, inner_zero, ih, add_zero]

theorem zeros_innerSum (ss : List Shape) (bs : List (Dense R)) : innerSum (ss.map zero) bs = 0 := by
  induction bs generalizing ss with
  | nil =>
    cases ss <;> rfl
  | cons b bs ih =>
    cases ss with
    | nil => rfl
    | cons s ss => rw [List.map_cons, innerSum_cons, zero_inner, ih, add_zero]

theorem innerSum_append {as as' bs bs' : List (Dense R)} (h : as.length = bs.length) :
    innerSum (as ++ as') (bs ++ bs') = innerSum as bs + innerSum as' bs' := by
  rw [innerSum, List.zipWith_append h, List.sum_append]
  rfl

/-- Lists of matrices with the same inner products are equal. -/
theorem eq_of_innerSum {as bs : List (Dense R)} (hs : as.map (·.shape) = bs.map (·.shape))
    (h : ∀ ds : List (Dense R), ds.map (·.shape) = as.map (·.shape) → innerSum as ds = innerSum bs ds) :
    as = bs := by
  induction as generalizing bs with
  | nil => exact (List.map_eq_nil_iff.1 hs.symm).symm
  | cons a as ih =>
    cases bs with
    | nil => cases hs
    | cons b bs =>
      obtain ⟨hab, hs⟩ := List.cons.inj hs
      congr 1
      · refine eq_of_inner hab fun d hd => ?_
        have hds := h (d :: (as.map (·.shape)).map zero) (by
          rw [List.map_cons, List.map_map, List.map_cons, hd]
          exact congrArg _ (List.map_id _))
        rwa [innerSum_cons, innerSum_cons, innerSum_zeros, innerSum_zeros, add_zero, add_zero] at hds
      · refine ih hs fun ds hds => ?_
        have hzero := h (zero a.shape :: ds) (congrArg (a.shape :: ·) hds)
        rwa [innerSum_cons, innerSum_cons, inner_zero, inner_zero, zero_add, zero_add] at hzero

/-! ## Products -/

variable {x y b d : Dense R}

theorem inner_mul_left (h : b.cols = y.cols) : b.inner (d.mul y) = (b.mul y.transpose).inner d := by
  unfold inner
  refine sum_congr rfl fun i _ => ?_
  simp only [get_mul', get_transpose, mul_sum, sum_mul, h, cols_mul]
  rw [sum_comm]
  exact sum_congr rfl fun j _ => sum_congr rfl fun k _ => by ring

theorem inner_mul_right (hb : b.rows = x.rows) (hd : d.rows = x.cols) :
    b.inner (x.mul d) = (x.transpose.mul b).inner d := by
  have h := inner_mul_left (b := b.transpose) (d := d.transpose) (y := x.transpose) hb
  rw [← transpose_mul hd.symm, ← inner_transpose, transpose_transpose, transpose_transpose] at h
  rw [h, inner_transpose, transpose_mul hb, transpose_transpose]

/-- A matrix made of blocks of an empty shape is empty. -/
theorem get_of_no_blocks {m y : Dense R} {r c : Nat} (hm : m.shape = ⟨r / y.rows, c / y.cols⟩)
    (hy : ¬ (0 < y.rows ∧ 0 < y.cols)) (i j : Nat) : m.get i j = 0 := by
  refine get_outside fun hlt => hy ?_
  rw [rows_of_shape hm, cols_of_shape hm] at hlt
  constructor
  · refine Nat.pos_of_ne_zero fun h0 => ?_
    rw [h0, Nat.div_zero] at hlt
    omega
  · refine Nat.pos_of_ne_zero fun h0 => ?_
    rw [h0, Nat.div_zero] at hlt
    omega

/-- Contracting blocks with the second factor is the adjoint of the Kronecker product with it. -/
theorem inner_kron_left (h : b.shape = ⟨d.rows * y.rows, d.cols * y.cols⟩) :
    b.inner (d.kron y) = (b.kronContractLeft y).inner d := by
  unfold inner
  show ∑ i ∈ range (d.rows * y.rows), ∑ j ∈ range (d.cols * y.cols), _ = _
  rw [sum_range_mul]
  refine sum_congr rfl fun i hi => ?_
  simp only [sum_range_mul]
  rw [sum_comm]
  refine sum_congr rfl fun j hj => ?_
  by_cases hy : 0 < y.rows ∧ 0 < y.cols
  · have hrows : b.rows / y.rows = d.rows := by
      rw [rows_of_shape h, Nat.mul_div_cancel _ hy.1]
    have hcols : b.cols / y.cols = d.cols := by
      rw [cols_of_shape h, Nat.mul_div_cancel _ hy.2]
    rw [get_kronContractLeft _ _ (hrows ▸ mem_range.1 hi) (hcols ▸ mem_range.1 hj), sum_mul, sum_comm]
    refine sum_congr rfl fun l hl => ?_
    rw [sum_mul]
    refine sum_congr rfl fun k hk => ?_
    rw [get_kron_block _ _ _ _ (mem_range.1 hk) (mem_range.1 hl)]
    ring
  · -- without blocks both sides are empty sums
    rw [get_of_no_blocks (shape_kronContractLeft b y) hy, zero_mul]
    refine sum_eq_zero fun k hk => sum_eq_zero fun l hl => (hy ?_).elim
    exact ⟨Nat.zero_lt_of_lt (mem_range.1 hk), Nat.zero_lt_of_lt (mem_range.1 hl)⟩

/-- The sum of blocks weighted by the first factor is the adjoint of the Kronecker product with it. -/
theorem inner_kron_right (h : b.shape = ⟨x.rows * d.rows, x.cols * d.cols⟩) :
    b.inner (x.kron d) = (b.kronContractRight x).inner d := by
  unfold inner
  show ∑ i ∈ range (x.rows * d.rows), ∑ j ∈ range (x.cols * d.cols), _ = _
  rw [sum_range_mul, sum_comm]
  refine sum_congr rfl fun k hk => ?_
  simp only [sum_range_mul]
  rw [sum_congr rfl fun i _ => sum_comm, sum_comm]
  refine sum_congr rfl fun l hl => ?_
  by_cases hx : 0 < x.rows ∧ 0 < x.cols
  · have hrows : b.rows / x.rows = d.rows := by
      rw [rows_of_shape h, Nat.mul_div_cancel_left _ hx.1]
    have hcols : b.cols / x.cols = d.cols := by
      rw [cols_of_shape h, Nat.mul_div_cancel_left _ hx.2]
    rw [get_kronContractRight _ _ (hrows ▸ mem_range.1 hk) (hcols ▸ mem_range.1 hl), sum_mul, sum_comm,
      hrows, hcols]
    refine sum_congr rfl fun j _ => ?_
    rw [sum_mul]
    refine sum_congr rfl fun i _ => ?_
    rw [get_kron_block _ _ _ _ (mem_range.1 hk) (mem_range.1 hl)]
    ring
  · rw [get_of_no_blocks (shape_kronContractRight b x) hx, zero_mul]
    refine sum_eq_zero fun i hi => sum_eq_zero fun j hj => (hx ?_).elim
    exact ⟨Nat.zero_lt_of_lt (mem_range.1 hi), Nat.zero_lt_of_lt (mem_range.1 hj)⟩

theorem inner_kronContractLeft_left (h : d.shape = ⟨b.rows * y.rows, b.cols * y.cols⟩)
    (hs : (d.kronContractLeft y).shape = b.shape) :
    b.inner (d.kronContractLeft y) = (b.kron y).inner d := by
  rw [inner_comm hs.symm, ← inner_kron_left h, inner_comm h]

theorem inner_kronContractLeft_right (h : x.shape = ⟨b.rows * d.rows, b.cols * d.cols⟩)
    (hs : (x.kronContractLeft d).shape = b.shape) :
    b.inner (x.kronContractLeft d) = (x.kronContractRight b).inner d := by
  rw [inner_comm hs.symm, ← inner_kron_left h, inner_kron_right h]

theorem inner_kronContractRight_left (h : d.shape = ⟨y.rows * b.rows, y.cols * b.cols⟩)
    (hs : (d.kronContractRight y).shape = b.shape) :
    b.inner (d.kronContractRight y) = (y.kron b).inner d := by
  rw [inner_comm hs.symm, ← inner_kron_right h, inner_comm h]

theorem inner_kronContractRight_right (h : x.shape = ⟨d.rows * b.rows, d.cols * b.cols⟩)
    (hs : (x.kronContractRight d).shape = b.shape) :
    b.inner (x.kronContractRight d) = (x.kronContractLeft b).inner d := by
  rw [inner_comm hs.symm, ← inner_kron_right h, inner_kron_left h]

end Lyapunov.Dense
