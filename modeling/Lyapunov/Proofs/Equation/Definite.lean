/-
Definiteness. A matrix is called semidefinite here when its quadratic form takes no negative value; it need
not be symmetric. Symmetric parts, sums, products with a matrix and its transpose on either side and
block-diagonal matrices of semidefinite matrices are semidefinite. So are the partial sums of the series for
a semidefinite right-hand side and what a later sum exceeds an earlier one by, and so are the answers of the
low-rank equation. Nothing is assumed of the size of `A`.
-/
import Mathlib.Algebra.Order.Field.Basic
import Lyapunov.Proofs.Equation.Data

namespace Lyapunov

open Finset Matrix

/-! ## Quadratic forms -/

section Form

variable {K : Type} [Field K] [LinearOrder K] {m n : Nat}

/-- `x' M x` is not negative for any `x`. -/
def Semidefinite (M : Matrix (Fin n) (Fin n) K) : Prop := ∀ x : Fin n → K, 0 ≤ x ⬝ᵥ M *ᵥ x

namespace Semidefinite

variable {M N W : Matrix (Fin n) (Fin n) K}

theorem transpose (hM : Semidefinite M) : Semidefinite Mᵀ := by
  intro x
  rw [mulVec_transpose, dotProduct_comm, ← dotProduct_mulVec]
  exact hM x

/-- With `y = C' x` the form of `C M C'` at `x` is that of `M` at `y`. -/
theorem congruence (hM : Semidefinite M) (C : Matrix (Fin m) (Fin n) K) : Semidefinite (C * M * Cᵀ) := by
  intro x
  have hform : x ⬝ᵥ (C * M * Cᵀ) *ᵥ x = (Cᵀ *ᵥ x) ⬝ᵥ M *ᵥ (Cᵀ *ᵥ x) := by
    rw [← mulVec_mulVec, ← mulVec_mulVec, dotProduct_mulVec x C, ← mulVec_transpose]
  rw [hform]
  exact hM _

variable [IsStrictOrderedRing K]

theorem add (hM : Semidefinite M) (hN : Semidefinite N) : Semidefinite (M + N) := by
  intro x
  rw [add_mulVec, dotProduct_add]
  exact add_nonneg (hM x) (hN x)

theorem sum {ι : Type} {s : Finset ι} {F : ι → Matrix (Fin n) (Fin n) K}
    (h : ∀ i ∈ s, Semidefinite (F i)) : Semidefinite (∑ i ∈ s, F i) := by
  intro x
  rw [sum_mulVec, dotProduct_sum]
  exact sum_nonneg fun i hi => h i hi x

theorem symmetricPart (hM : Semidefinite M) : Semidefinite (symmetricPart K M) := by
  intro x
  rw [Lyapunov.symmetricPart, smul_mulVec, dotProduct_smul]
  exact smul_nonneg (inv_nonneg.2 zero_le_two) ((hM.add hM.transpose) x)

/-! ## Partial sums -/

theorem partialSum (hW : Semidefinite W) (A : Matrix (Fin n) (Fin n) K) (k : Nat) :
    Semidefinite (partialSum A W k) :=
  sum fun i _ => hW.congruence (A ^ i)

/-- The terms that a later sum has and an earlier one has not. -/
theorem partialSum_sub (hW : Semidefinite W) (A : Matrix (Fin n) (Fin n) K) {j k : Nat} (hjk : j ≤ k) :
    Semidefinite (Lyapunov.partialSum A W k - Lyapunov.partialSum A W j) := by
  obtain ⟨l, rfl⟩ := Nat.exists_eq_add_of_le hjk
  rw [partialSum_add, add_sub_cancel_left]
  exact (hW.partialSum A l).congruence (A ^ j)

end Semidefinite

end Form

/-! ## Stored matrices -/

namespace Dense

section Form

variable {K : Type} [Field K] {n : Nat}

/-- The value `x' M x` of the quadratic form of a stored matrix. -/
def form (d : Dense K) (x : Nat → K) : K :=
  ∑ i ∈ range d.rows, ∑ j ∈ range d.cols, x i * d.get i j * x j

theorem form_ofMatrix (M : Matrix (Fin n) (Fin n) K) (x : Nat → K) :
    (ofMatrix M).form x = (fun i : Fin n => x i) ⬝ᵥ M *ᵥ fun i : Fin n => x i := by
  unfold form
  rw [rows_ofMatrix, cols_ofMatrix, sum_range]
  refine sum_congr rfl fun i _ => ?_
  rw [sum_range, mulVec, dotProduct, mul_sum]
  exact sum_congr rfl fun j _ => by rw [get_ofMatrix, mul_assoc]

/-- Of a square block and those after it each sees its own places of `x` only. -/
theorem form_blockDiagonal_cons {b : Dense K} (hb : b.cols = b.rows) (bs : List (Dense K)) (x : Nat → K) :
    (blockDiagonal (b :: bs)).form x = b.form x + (blockDiagonal bs).form fun i => x (b.rows + i) := by
  have hfirst (i j : Nat) (h : i < b.rows ∨ j < b.rows) :
      (blockDiagonal (b :: bs)).get i j = b.get i j := by
    rw [get_blockDiagonal_cons, if_neg (by omega), add_zero]
  have hrest (i j : Nat) :
      (blockDiagonal (b :: bs)).get (b.rows + i) (b.rows + j) = (blockDiagonal bs).get i j := by
    rw [get_blockDiagonal_cons, get_of_rows_le (Nat.le_add_right _ _), if_pos (by omega), zero_add, hb,
      Nat.add_sub_cancel_left, Nat.add_sub_cancel_left]
  unfold form
  rw [rows_blockDiagonal_cons, cols_blockDiagonal_cons, hb, sum_range_add]
  refine congrArg₂ (· + ·) (sum_congr rfl fun i hi => ?_) (sum_congr rfl fun i _ => ?_)
  · -- a row of the block: zero to the right of it
    rw [sum_range_add, sum_eq_zero (s := range (blockDiagonal bs).cols) fun j _ => ?_, add_zero]
    · exact sum_congr rfl fun j _ => by rw [hfirst i j (.inl (mem_range.1 hi))]
    · rw [hfirst i _ (.inl (mem_range.1 hi)), get_of_cols_le (by omega), mul_zero, zero_mul]
  · -- a row below the block: zero to the left of the others
    rw [sum_range_add, sum_eq_zero (s := range b.rows) fun j hj => ?_, zero_add]
    · exact sum_congr rfl fun j _ => by rw [hrest]
    · rw [hfirst _ j (.inr (mem_range.1 hj)), get_of_rows_le (by omega), mul_zero, zero_mul]

end Form

variable {K : Type} [Field K] [LinearOrder K] {n : Nat}

/-- The quadratic form takes no negative value. -/
def Semidefinite (d : Dense K) : Prop := ∀ x, 0 ≤ d.form x

theorem semidefinite_ofMatrix {M : Matrix (Fin n) (Fin n) K} :
    (ofMatrix M).Semidefinite ↔ Lyapunov.Semidefinite M := by
  constructor
  · intro h x
    -- a vector with entries at all places, of which the first `n` are those of `x`
    have hx : (fun i : Fin n => (fun k => if hk : k < n then x ⟨k, hk⟩ else 0) i.val) = x := by
      funext i
      exact dif_pos i.2
    have hform := h fun k => if hk : k < n then x ⟨k, hk⟩ else 0
    rwa [form_ofMatrix, hx] at hform
  · intro h x
    rw [form_ofMatrix]
    exact h _

/-- A number that is not negative. -/
theorem semidefinite_ofScalar [IsStrictOrderedRing K] {x : K} (hx : 0 ≤ x) : (ofScalar x).Semidefinite := by
  rw [ofScalar_eq_ofMatrix, semidefinite_ofMatrix]
  intro y
  have hform : y ⬝ᵥ !![x] *ᵥ y = x * (y 0 * y 0) := by
    simp only [dotProduct, mulVec, univ_unique, Fin.default_eq_zero, sum_singleton, of_apply, cons_val_fin_one]
    ring
  rw [hform]
  exact mul_nonneg hx (mul_self_nonneg _)

theorem Semidefinite.toMatrix {d : Dense K} (hd : d.Semidefinite) (hs : d.shape = .square n) :
    Lyapunov.Semidefinite (d.toMatrix n n) := by
  rw [← semidefinite_ofMatrix, ofMatrix_toMatrix hs]
  exact hd

/-- Square blocks along the diagonal. -/
theorem semidefinite_blockDiagonal [IsStrictOrderedRing K] {bs : List (Dense K)}
    (hsquare : ∀ b ∈ bs, b.cols = b.rows) (h : ∀ b ∈ bs, b.Semidefinite) :
    (blockDiagonal bs).Semidefinite := by
  induction bs with
  | nil => exact fun _ => le_refl 0
  | cons b bs ih =>
    intro x
    rw [form_blockDiagonal_cons (hsquare b (.head bs))]
    exact add_nonneg (h b (.head bs) x)
      (ih (fun c hc => hsquare c (.tail b hc)) (fun c hc => h c (.tail b hc)) _)

end Dense

/-! ## The low-rank equation -/

namespace LowRankDle

open Lyapunov.Dense

variable {K : Type} [Field K] [LinearOrder K] [IsStrictOrderedRing K]

/-- The right-hand side for a semidefinite `V`. -/
theorem Valid.semidefinite_rhs {e : LowRankDle} (he : e.Valid) (d : Data K e) (hv : d.v.Semidefinite) :
    Lyapunov.Semidefinite (d.rhs K) := by
  have hshape := d.shape_v.trans he.v
  have hc := d.shape_c
  unfold Data.rhs rhs
  cases hdc : d.c with
  | none =>
    rw [hdc] at hc
    rw [← hc] at hshape
    exact (hv.toMatrix hshape).symmetricPart
  | some c =>
    rw [hdc] at hc
    rw [← hc] at hshape
    exact (hv.toMatrix hshape).symmetricPart.congruence _

/-- The answer for a semidefinite solution. -/
theorem semidefinite_answer {n : Nat} {P : Matrix (Fin n) (Fin n) K} (hP : Lyapunov.Semidefinite P)
    (H : Option (Dense K)) (widths : List Nat) : (answer H widths P).Semidefinite := by
  cases H with
  | none => exact semidefinite_ofMatrix.2 hP
  | some h =>
    refine semidefinite_blockDiagonal (fun b hb => ?_) fun b hb => ?_
    · obtain ⟨B, -, rfl⟩ := List.mem_map.1 hb
      rfl
    · obtain ⟨B, -, rfl⟩ := List.mem_map.1 hb
      have hproject := hP.congruence B.entriesᵀ
      rw [transpose_transpose] at hproject
      exact semidefinite_ofMatrix.2 hproject

end LowRankDle

end Lyapunov
