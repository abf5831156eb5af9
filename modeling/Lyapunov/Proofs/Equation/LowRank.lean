/-
The low-rank equation `P = A P A' + C V C'`: which shapes are accepted, its right-hand side, and the
answer for a solution.
-/
import Lyapunov.Proofs.Equation.Series
import Lyapunov.Proofs.Exact.Blocks
import Lyapunov.Proofs.Tape.Shapes
import Lyapunov.Equation.LowRank

namespace Lyapunov.LowRankDle

open Matrix Lyapunov.Dense

/-! ## Shapes -/

/-- Shapes for which the equation makes sense. -/
@[mk_iff] structure Valid (e : LowRankDle) : Prop where
  a : e.a = .square e.a.rows
  v : e.v = .square (e.c.elim e.a.rows Shape.cols)
  c : ∀ c ∈ e.c, c.rows = e.a.rows
  h : ∀ h ∈ e.h, h.rows = e.a.rows ∧ (∀ w ∈ e.blockWidths, 0 < w) ∧ e.blockWidths.sum = h.cols

theorem isSquare_iff {s : Shape} : s.isSquare = true ↔ s = .square s.rows := by
  rw [Shape.isSquare, beq_iff_eq, Shape.square]
  constructor
  · intro h
    rw [Shape.mk.injEq]
    exact ⟨rfl, h.symm⟩
  · intro h
    exact (congrArg Shape.cols h).symm

theorem foldl_add_eq_sum (widths : List Nat) : widths.foldl Nat.add 0 = widths.sum := by
  rw [List.sum_eq_foldl]
  rfl

theorem require_bind_eq_ok {p : Bool} {r : ShapeRequirement} {s : Shape} {k : Unit → Except Error Unit} :
    (s.require p r >>= k) = .ok () ↔ p = true ∧ k () = .ok () := by
  rw [Except.bind_eq_ok]
  constructor
  · rintro ⟨⟨⟩, h, hk⟩
    exact ⟨Shape.require_eq_ok.1 h, hk⟩
  · rintro ⟨h, hk⟩
    exact ⟨(), Shape.require_eq_ok.2 h, hk⟩

theorem widths_iff {widths : List Nat} {n : Nat} :
    (!widths.contains 0 && widths.foldl Nat.add 0 == n) = true ↔ (∀ w ∈ widths, 0 < w) ∧ widths.sum = n := by
  have hpos : (!widths.contains 0) = true ↔ ∀ w ∈ widths, 0 < w := by
    rw [Bool.not_eq_true', ← Bool.not_eq_true, List.contains_iff_mem]
    exact ⟨fun h w hw => Nat.pos_of_ne_zero fun h0 => h (h0 ▸ hw), fun h h0 => Nat.lt_irrefl 0 (h 0 h0)⟩
  rw [Bool.and_eq_true, hpos, beq_iff_eq, foldl_add_eq_sum]

theorem validate_eq_ok {e : LowRankDle} : e.validate = .ok () ↔ e.Valid := by
  obtain ⟨a, v, c, h, widths⟩ := e
  rw [valid_iff]
  cases c <;> cases h <;>
    simp only [validate, require_bind_eq_ok, Shape.require_eq_ok, isSquare_iff, beq_iff_eq, widths_iff,
      Option.mem_def, Option.some.injEq, forall_eq', Option.elim, reduceCtorEq, false_implies,
      implies_true, and_true, pure, Except.pure] <;>
    tauto

/-- A valid factor `H` has blocks. -/
theorem Valid.blockWidths_ne_nil {e : LowRankDle} (h : e.h ≠ none) : e.blockWidths ≠ [] := by
  unfold blockWidths
  split
  · contradiction
  · split
    · exact List.cons_ne_nil _ _
    · rename_i hne
      exact fun hnil => hne (List.isEmpty_iff.2 hnil)

/-! ## The right-hand side -/

variable {R : Type} [CommRing R] {n : Nat}

section RightHandSide

variable (K : Type) [Field K] [Algebra K R]

/-- The right-hand side `C V C'` for the symmetric part of `V`; without `C` it is that part itself. -/
def rhs (n : Nat) (v : Dense R) (c : Option (Dense R)) : Matrix (Fin n) (Fin n) R :=
  match c with
  | none => symmetricPart K (v.toMatrix n n)
  | some c => c.toMatrix n c.cols * symmetricPart K (v.toMatrix c.cols c.cols) * (c.toMatrix n c.cols)ᵀ

theorem symmetricPart_rhs (n : Nat) (v : Dense R) (c : Option (Dense R)) :
    symmetricPart K (rhs K n v c) = rhs K n v c := by
  cases c with
  | none => exact symmetricPart_symmetricPart K _
  | some c => rw [rhs, symmetricPart_congruence, symmetricPart_symmetricPart]

end RightHandSide

/-! ## The answer -/

/-- The block-diagonal matrix of the projections of `P` to blocks of columns. -/
def projections (Bs : List (ColumnBlock R n)) (P : Matrix (Fin n) (Fin n) R) : Dense R :=
  Dense.blockDiagonal (Bs.map fun B => ofMatrix (B.project P))

theorem shape_projections (Bs : List (ColumnBlock R n)) (P : Matrix (Fin n) (Fin n) R) :
    (projections Bs P).shape = .square (Bs.map (·.width)).sum := by
  induction Bs with
  | nil => rfl
  | cons B Bs ih =>
    rw [List.map_cons, List.sum_cons]
    exact congrArg₂ Shape.mk (congrArg (B.width + ·) (rows_of_shape ih))
      (congrArg (B.width + ·) (cols_of_shape ih))

theorem get_projections_cons (B : ColumnBlock R n) (Bs : List (ColumnBlock R n))
    (P : Matrix (Fin n) (Fin n) R) (i j : Nat) :
    (projections (B :: Bs) P).get i j = (ofMatrix (B.project P)).get i j +
      if B.width ≤ i ∧ B.width ≤ j then (projections Bs P).get (i - B.width) (j - B.width) else 0 :=
  get_blockDiagonal_cons _ _ i j

theorem get_projections_sub (Bs : List (ColumnBlock R n)) (P Q : Matrix (Fin n) (Fin n) R) (i j : Nat) :
    (projections Bs (P - Q)).get i j = (projections Bs P).get i j - (projections Bs Q).get i j := by
  induction Bs generalizing i j with
  | nil => simp only [projections, List.map_nil, Dense.blockDiagonal, get_zero, sub_zero]
  | cons B Bs ih =>
    rw [get_projections_cons, get_projections_cons, get_projections_cons, B.project_sub, get_ofMatrix_sub]
    by_cases h : B.width ≤ i ∧ B.width ≤ j
    · rw [if_pos h, if_pos h, if_pos h, ih]
      ring
    · rw [if_neg h, if_neg h, if_neg h, add_zero, add_zero, add_zero]

/-- The answer with the solution `P`: the solution itself, or with a factor `H` the block-diagonal matrix
of its projections to the blocks of columns. -/
def answer (H : Option (Dense R)) (widths : List Nat) (P : Matrix (Fin n) (Fin n) R) : Dense R :=
  match H with
  | none => ofMatrix P
  | some d => projections (d.columnBlocks n 0 widths) P

theorem shape_answer (H : Option (Dense R)) (widths : List Nat) (P : Matrix (Fin n) (Fin n) R) :
    (answer H widths P).shape = .square (H.elim n fun _ => widths.sum) := by
  cases H with
  | none => rfl
  | some d =>
    show (projections (d.columnBlocks n 0 widths) P).shape = .square widths.sum
    rw [shape_projections, map_width_columnBlocks]

/-- The answer depends on the solution linearly. -/
theorem answer_sub (H : Option (Dense R)) (widths : List Nat) (P Q : Matrix (Fin n) (Fin n) R) :
    (answer H widths P).add (answer H widths Q).neg = answer H widths (P - Q) := by
  have hshape : (answer H widths P).shape = (answer H widths Q).neg.shape :=
    (shape_answer H widths P).trans (shape_answer H widths Q).symm
  refine ext_shape ((shape_answer H widths P).trans (shape_answer H widths _).symm) fun i j => ?_
  rw [get_add_of_shape hshape, get_neg', ← sub_eq_add_neg]
  cases H with
  | none => exact (get_ofMatrix_sub P Q i j).symm
  | some d => exact (get_projections_sub _ P Q i j).symm

theorem answer_zero (H : Option (Dense R)) (widths : List Nat) :
    answer H widths (0 : Matrix (Fin n) (Fin n) R) = .zero (.square (H.elim n fun _ => widths.sum)) := by
  have hsub := answer_sub H widths (0 : Matrix (Fin n) (Fin n) R) 0
  rw [sub_zero] at hsub
  refine ext_shape (shape_answer H widths 0) fun i j => ?_
  rw [← hsub, get_add_of_shape (shape_neg _).symm, get_neg', add_neg_cancel, get_zero]

end Lyapunov.LowRankDle
