/-
The data of an equation: matrices for it, and the symbols that stand for them in its solvers.
-/
import Lyapunov.Proofs.Equation.Inputs
import Lyapunov.Proofs.Func.Symbols
import Lyapunov.Equation.Dle

namespace Lyapunov

open Lyapunov.Dense Matrix

variable {K R : Type} {ρ : Expr K → Dense R → Prop}

/-! ## The full equation -/

namespace Dle

/-- Shapes for which the equation makes sense. -/
theorem validate_eq_ok {e : Dle} : e.validate = .ok () ↔ e = .square e.a.rows := by
  obtain ⟨a, v⟩ := e
  have hvalidate : validate ⟨a, v⟩ = .ok () ↔ a = .square a.rows ∧ v = a := by
    unfold validate
    rw [LowRankDle.require_bind_eq_ok, LowRankDle.isSquare_iff, Shape.require_eq_ok, beq_iff_eq]
  rw [hvalidate, square, Dle.mk.injEq]
  constructor
  · rintro ⟨ha, hv⟩
    exact ⟨ha, hv.trans ha⟩
  · rintro ⟨ha, hv⟩
    exact ⟨ha, hv.trans ha.symm⟩

/-- Without factors the low-rank equation makes sense for the same shapes. -/
theorem valid_lowRank {e : Dle} (he : e = .square e.a.rows) : LowRankDle.Valid { a := e.a, v := e.v } :=
  ⟨congrArg Dle.a he, congrArg Dle.v he, by simp, by simp⟩

variable (e : Dle) (s : Nat)

theorem declared_declare : Declared ((e.declare (α := K)).run s).1.2 ((e.declare (α := K)).run s).2 :=
  ((Declared.nil s).snoc "a" "A" e.a (by simp)).snoc "v" "V" e.v (by simp)

/-- The symbols are read as the data. -/
theorem reads_declare {a v : Dense R}
    (h : List.Forall₂ (fun p d => ρ p.2 d) ((e.declare (α := K)).run s).1.2 [a, v]) :
    Reads ρ a (nodesOf ((e.declare (α := K)).run s).1.2) ((e.declare (α := K)).run s).1.1.a ∧
      Reads ρ v (nodesOf ((e.declare (α := K)).run s).1.2) ((e.declare (α := K)).run s).1.1.v := by
  cases h with
  | cons ha h =>
    cases h with
    | cons hv _ => exact ⟨⟨⟨_, .head _, rfl⟩, ha⟩, ⟨⟨_, .tail _ (.head _), rfl⟩, hv⟩⟩

end Dle

/-! ## The low-rank equation -/

namespace LowRankDle

/-- Matrices of the shapes of the equation. -/
structure Data (R : Type) (e : LowRankDle) where
  a : Dense R
  v : Dense R
  c : Option (Dense R)
  h : Option (Dense R)
  shape_a : a.shape = e.a
  shape_v : v.shape = e.v
  shape_c : c.map (·.shape) = e.c
  shape_h : h.map (·.shape) = e.h

namespace Data

variable {e : LowRankDle} (d : Data R e)

/-- The matrices in the order of the inputs. -/
def matrices : List (Dense R) := [d.a, d.v] ++ d.c.toList ++ d.h.toList

/-- The symbols have the shapes of the matrices. -/
theorem map_shape_matrices (s : Nat) :
    d.matrices.map (·.shape) = ((e.declare (α := K)).run s).1.2.map (·.2.shape) := by
  obtain ⟨a, v, c, h, hsa, hsv, hsc, hsh⟩ := d
  obtain ⟨ea, ev, ec, eh, widths⟩ := e
  cases hsa
  cases hsv
  cases hsc
  cases hsh
  cases c <;> cases h <;> rfl

/-- Matrices of zeros. -/
def zero (R : Type) [Zero R] (e : LowRankDle) : Data R e where
  a := .zero e.a
  v := .zero e.v
  c := e.c.map .zero
  h := e.h.map .zero
  shape_a := rfl
  shape_v := rfl
  shape_c := by rw [Option.map_map]; exact Option.map_id'
  shape_h := by rw [Option.map_map]; exact Option.map_id'

/-- The same data but for the matrix `V`. -/
def withV (v : Dense R) (hv : v.shape = e.v) : Data R e := { d with v, shape_v := hv }

theorem matrices_withV {a v w : Dense R} {ds : List (Dense R)} (hd : d.matrices = a :: v :: ds)
    (hw : w.shape = e.v) : (d.withV w hw).matrices = a :: w :: ds := by
  obtain ⟨ha, hd⟩ := List.cons.inj hd
  exact congrArg₂ (fun a ds => a :: w :: ds) ha (List.cons.inj hd).2

variable [CommRing R]

/-- The matrix `A`. -/
def matrix : Matrix (Fin e.a.rows) (Fin e.a.rows) R := d.a.toMatrix e.a.rows e.a.rows

/-- The right-hand side `C V C'`, for the symmetric part of `V`. -/
def rhs (K : Type) [Field K] [Algebra K R] : Matrix (Fin e.a.rows) (Fin e.a.rows) R :=
  LowRankDle.rhs K e.a.rows d.v d.c

/-- The answer with the solution `P`. -/
def answer (P : Matrix (Fin e.a.rows) (Fin e.a.rows) R) : Dense R :=
  LowRankDle.answer d.h e.blockWidths P

/-- Without a factor `H` the answer is the solution. -/
theorem answer_of_h_eq_none (hh : e.h = none) (P : Matrix (Fin e.a.rows) (Fin e.a.rows) R) :
    d.answer P = ofMatrix P := by
  have hd := d.shape_h
  rw [hh, Option.map_eq_none_iff] at hd
  rw [answer, hd]
  rfl

end Data

/-- Matrices of the shapes of the equation are data for it. -/
theorem exists_data {e : LowRankDle} {ds : List (Dense R)}
    (h : ds.map (·.shape) = [e.a, e.v] ++ e.c.toList ++ e.h.toList) : ∃ d : Data R e, d.matrices = ds := by
  obtain ⟨a, ds, rfl, ha, h⟩ := List.map_eq_cons_iff.1 h
  obtain ⟨v, ds, rfl, hv, h⟩ := List.map_eq_cons_iff.1 h
  obtain ⟨cs, hs, rfl, hcs, hhs⟩ := List.map_eq_append_iff.1 h
  have hoption {ds : List (Dense R)} {o : Option Shape} (h : ds.map (·.shape) = o.toList) :
      ∃ d : Option (Dense R), d.map (·.shape) = o ∧ d.toList = ds := by
    cases o with
    | none => exact ⟨none, rfl, (List.map_eq_nil_iff.1 h).symm⟩
    | some s =>
      obtain ⟨d, rfl, rfl⟩ := List.map_eq_singleton_iff.1 h
      exact ⟨some d, rfl, rfl⟩
  obtain ⟨c, hc, rfl⟩ := hoption hcs
  obtain ⟨H, hh, rfl⟩ := hoption hhs
  exact ⟨⟨a, v, c, H, ha, hv, hc, hh⟩, rfl⟩

/-- An equation with both factors, and an answer with two blocks. -/
def twoBlocks : LowRankDle where
  a := .square 2
  v := .square 1
  c := some ⟨2, 1⟩
  h := some ⟨2, 2⟩
  hBlocks := [1, 1]

def twoBlocksData : Data ℚ twoBlocks where
  a := ⟨2, 2, #[2, 0, 1, 2], rfl⟩
  v := ⟨1, 1, #[2], rfl⟩
  c := some ⟨2, 1, #[1, 1], rfl⟩
  h := some ⟨2, 2, #[1, 0, 0, 1], rfl⟩
  shape_a := rfl
  shape_v := rfl
  shape_c := rfl
  shape_h := rfl

/-- The solution for these data. -/
def twoBlocksSolution : Matrix (Fin twoBlocks.a.rows) (Fin twoBlocks.a.rows) ℚ :=
  !![-4 / 27, -2 / 9; -2 / 9, -2 / 3]

theorem twoBlocksSolution_eq : twoBlocksSolution =
    twoBlocksData.matrix * twoBlocksSolution * twoBlocksData.matrixᵀ + twoBlocksData.rhs ℚ := by
  decide +kernel

variable (e : LowRankDle) (s : Nat)

theorem declared_declare : Declared ((e.declare (α := K)).run s).1.2 ((e.declare (α := K)).run s).2 := by
  obtain ⟨a, v, c, h, widths⟩ := e
  have hav := ((Declared.nil (α := K) s).snoc "a" "A" a (by simp)).snoc "v" "V" v (by simp)
  cases c with
  | none =>
    cases h with
    | none => exact hav
    | some h => exact hav.snoc "h" "H" h (by simp)
  | some c =>
    have hc := hav.snoc "c" "C" c (by simp)
    cases h with
    | none => exact hc
    | some h => exact hc.snoc "h" "H" h (by simp)

/-- Each symbol is a node. -/
theorem mem_nodesOf {symbols : List (String × Expr K)} {name : String} {e : Expr K}
    (h : (name, e) ∈ symbols) : e ∈ nodesOf symbols := ⟨(name, e), h, rfl⟩

variable [CommRing R] {e}

/-- The answer has the shape of the output. -/
theorem Valid.shape_answer (he : e.Valid) (d : Data R e) (P : Matrix (Fin e.a.rows) (Fin e.a.rows) R) :
    (d.answer P).shape = e.outputShape := by
  have hh := d.shape_h
  refine (LowRankDle.shape_answer d.h e.blockWidths P).trans ?_
  unfold outputShape
  cases heh : e.h with
  | none =>
    rw [heh, Option.map_eq_none_iff] at hh
    rw [hh]
    exact he.a.symm
  | some s =>
    rw [heh, Option.map_eq_some_iff] at hh
    obtain ⟨m, hm, -⟩ := hh
    rw [hm]
    exact congrArg Shape.square (he.h s heh).2.2

theorem Valid.answer_zero (he : e.Valid) (d : Data R e) : d.answer 0 = .zero e.outputShape := by
  rw [← he.shape_answer d 0, Data.answer, LowRankDle.answer_zero]
  rfl

theorem Valid.ofMatrix_matrix (he : e.Valid) (d : Data R e) : ofMatrix d.matrix = d.a :=
  ofMatrix_toMatrix (d.shape_a.trans he.a)

/-- The symbols are read as the data. -/
theorem Valid.readAs_declare (he : e.Valid) (d : Data R e)
    (hd : List.Forall₂ (fun p m => ρ p.2 m) ((e.declare (α := K)).run s).1.2 d.matrices) :
    ((e.declare (α := K)).run s).1.1.ReadAs ρ (nodesOf ((e.declare (α := K)).run s).1.2)
      d.matrix d.v d.c d.h := by
  have hmatrix := he.ofMatrix_matrix d
  obtain ⟨a, v, c, h, hsa, hsv, hsc, hsh⟩ := d
  obtain ⟨ea, ev, ec, eh, widths⟩ := e
  cases hsa
  cases hsv
  cases hsc
  cases hsh
  cases hd with
  | cons ha hd =>
    cases hd with
    | cons hv hd =>
      refine ⟨⟨mem_nodesOf (.head _), hmatrix ▸ ha⟩, ⟨mem_nodesOf (.tail _ (.head _)), hv⟩, ?_, ?_, ?_,
        fun m hm => ?_, fun m hm => ?_⟩
      · cases c with
        | none => exact .none
        | some c =>
          cases hd with
          | cons hc _ => exact .some ⟨mem_nodesOf (.tail _ (.tail _ (.head _))), hc⟩
      · cases c with
        | none =>
          cases h with
          | none => exact .none
          | some h =>
            cases hd with
            | cons hh _ => exact .some ⟨mem_nodesOf (.tail _ (.tail _ (.head _))), hh⟩
        | some c =>
          cases h with
          | none => exact .none
          | some h =>
            cases hd with
            | cons _ hd =>
              cases hd with
              | cons hh _ => exact .some ⟨mem_nodesOf (.tail _ (.tail _ (.tail _ (.head _)))), hh⟩
      · cases c with
        | none => exact he.v
        | some c => exact he.v
      · cases hm
        exact he.c _ rfl
      · cases hm
        exact (he.h _ rfl).1

/-- A factor `H` has blocks. -/
theorem hBlocks_declare_ne_nil (e : LowRankDle) (s : Nat) (h : ((e.declare (α := K)).run s).1.1.h ≠ none) :
    ((e.declare (α := K)).run s).1.1.hBlocks ≠ [] := by
  refine Valid.blockWidths_ne_nil fun hnone => h ?_
  obtain ⟨a, v, c, o, widths⟩ := e
  cases hnone
  rfl

end LowRankDle

end Lyapunov
