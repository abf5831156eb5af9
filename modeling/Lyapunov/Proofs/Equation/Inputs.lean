/-
The data of the low-rank equation as expressions that are read as matrices. A factor that is absent is
read as the identity.
-/
import Lyapunov.Proofs.Expr.Blocks

namespace Lyapunov

open Lyapunov.Dense Matrix

section

variable {α : Type} {R : Type} [CommRing R] {n : Nat}

/-- The factor of a term of the series. -/
inductive FactorReads (ρ : Expr α → Dense R → Prop) (S : Set (Expr α)) :
    {m : Nat} → Matrix (Fin n) (Fin m) R → Option (Expr α) → Prop
  | identity : FactorReads ρ S (1 : Matrix (Fin n) (Fin n) R) none
  | factor {m : Nat} {D : Matrix (Fin n) (Fin m) R} {d : Expr α} :
    Reads ρ (ofMatrix D) S d → FactorReads ρ S D (some d)

/-- The data of the equation are nodes of the graph `S` and are read as matrices that fit. -/
structure LowRankInputs.ReadAs (ρ : Expr α → Dense R → Prop) (S : Set (Expr α)) (i : LowRankInputs α)
    (A : Matrix (Fin n) (Fin n) R) (v : Dense R) (c h : Option (Dense R)) : Prop where
  readsA : Reads ρ (ofMatrix A) S i.a
  readsV : Reads ρ v S i.v
  readsC : Option.Rel (fun e d => Reads ρ d S e) i.c c
  readsH : Option.Rel (fun e d => Reads ρ d S e) i.h h
  shape : v.shape = .square (c.elim n Dense.cols)
  rowsC : ∀ d ∈ c, d.rows = n
  rowsH : ∀ d ∈ h, d.rows = n

variable {ρ : Expr α → Dense R → Prop} {S S' : Set (Expr α)}

theorem FactorReads.mono {m : Nat} {D : Matrix (Fin n) (Fin m) R} {d : Option (Expr α)}
    (hd : FactorReads ρ S D d) (hS : S ⊆ S') : FactorReads ρ S' D d := by
  cases hd with
  | identity => exact .identity
  | factor hd => exact .factor (hd.mono hS)

omit [CommRing R] in
theorem rel_reads_mono {o : Option (Expr α)} {d : Option (Dense R)}
    (h : Option.Rel (fun e d => Reads ρ d S e) o d) (hS : S ⊆ S') :
    Option.Rel (fun e d => Reads ρ d S' e) o d := by
  cases h with
  | none => exact .none
  | some he => exact .some (he.mono hS)

namespace LowRankInputs.ReadAs

variable {i : LowRankInputs α} {A : Matrix (Fin n) (Fin n) R} {v : Dense R} {c h : Option (Dense R)}

theorem mono (hi : i.ReadAs ρ S A v c h) (hS : S ⊆ S') : i.ReadAs ρ S' A v c h where
  readsA := hi.readsA.mono hS
  readsV := hi.readsV.mono hS
  readsC := rel_reads_mono hi.readsC hS
  readsH := rel_reads_mono hi.readsH hS
  shape := hi.shape
  rowsC := hi.rowsC
  rowsH := hi.rowsH

/-- The right-hand side as a product with the factor `C`. -/
theorem exists_factor (K : Type) [Field K] [Algebra K R] (hi : i.ReadAs ρ S A v c h) :
    ∃ (m : Nat) (V : Matrix (Fin m) (Fin m) R) (C : Matrix (Fin n) (Fin m) R),
      Reads ρ (ofMatrix V) S i.v ∧ FactorReads ρ S C i.c ∧
        LowRankDle.rhs K n v c = C * symmetricPart K V * Cᵀ := by
  obtain ⟨-, hv, hc, -, hshape, hrows, -⟩ := hi
  generalize i.c = o at hc
  cases hc with
  | none =>
    have hshape : v.shape = .square n := hshape
    refine ⟨n, v.toMatrix n n, 1, ?_, .identity, ?_⟩
    · rwa [ofMatrix_toMatrix hshape]
    · rw [transpose_one, one_mul, mul_one]
      rfl
  | @some e d he =>
    have hshape : v.shape = .square d.cols := hshape
    refine ⟨d.cols, v.toMatrix d.cols d.cols, d.toMatrix n d.cols, ?_, .factor ?_, rfl⟩
    · rwa [ofMatrix_toMatrix hshape]
    · rwa [ofMatrix_toMatrix (congrArg (Shape.mk · d.cols) (hrows d rfl))]

end LowRankInputs.ReadAs

end

end Lyapunov
