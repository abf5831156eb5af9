/-
What a solver computes, whatever made it. The function of every solver gives the answer for what one of two
schemes gives, the sum of the first terms of the series or the solution of the system, and its rate of change
is that of the answer. The full equation is the low-rank equation without factors.
-/
import Lyapunov.Proofs.Equation.Symmetry
import Lyapunov.Proofs.Solver.Gradient
import Lyapunov.Proofs.Solver.Made

open Kronecker

namespace Lyapunov

open Build Lyapunov.Dense Matrix

namespace Scheme

/-! ## Readings -/

/-- The reading follows the operations of the scheme, where `P` stands for what the scheme gives. -/
def ReadAs {α R : Type} [CommRing R] {n : Nat} (scheme : Scheme) (ρ : Expr α → Dense R → Prop)
    (A W P : Matrix (Fin n) (Fin n) R) : Prop :=
  match scheme with
  | series terms => P = partialSum A W terms
  | system => SolvesAs ρ A W P

section

variable {K : Type} [ExactScalar K] {n : Nat} {scheme : Scheme}

theorem Regular.readAs_computes {A W P : Matrix (Fin n) (Fin n) K} (hA : scheme.Regular A)
    (hP : scheme.Gives A W P) (hn : 0 < n) (env : Nat → Dense K) :
    scheme.ReadAs (Expr.Computes env) A W P := by
  cases scheme with
  | series terms => exact hP
  | system => exact Expr.solvesAs_computes env hn (IsUnit.ne_zero hA) hP

theorem Regular.readAs_dualComputes {A W P : Matrix (Fin n) (Fin n) (DualNumber K)} (hA : scheme.Regular A)
    (hP : scheme.Gives A W P) (env : Nat → Dense (DualNumber K)) :
    scheme.ReadAs (Expr.DualComputes env) A W P := by
  cases scheme with
  | series terms => exact hP
  | system => exact Expr.solvesAs_dualComputes env hA hP

/-- Only a system can be singular. -/
theorem eq_system_of_not_regular {A : Matrix (Fin n) (Fin n) K} (hA : ¬ scheme.Regular A) :
    scheme = .system ∧ (1 - A ⊗ₖ A).det = 0 := by
  cases scheme with
  | series terms => exact absurd trivial hA
  | system => exact ⟨rfl, by_contra fun h => hA (Ne.isUnit h)⟩

end

/-! ## Methods -/

/-- However data of the low-rank equation are read, what `m` builds is read as the answer for what the scheme
gives. -/
def Builds {α : Type} [Scalar α] (scheme : Scheme) (i : LowRankInputs α) (m : Build (Expr α)) : Prop :=
  ∀ {K R : Type} [Field K] [CommRing R] [Algebra K R] {φ : α → R} {ρ : Expr α → Dense R → Prop},
    Reading K φ ρ → ∀ {n : Nat} {A P : Matrix (Fin n) (Fin n) R} {v : Dense R} {c H : Option (Dense R)}
      {S : Set (Expr α)}, i.ReadAs ρ S A v c H → scheme.ReadAs ρ A (LowRankDle.rhs K n v c) P →
        Grows (Readable ρ) S m fun S' y => Reads ρ (LowRankDle.answer H i.hBlocks P) S' y ∧
          (scheme = .system → y.Solves ρ A (LowRankDle.rhs K n v c))

end Scheme

section

variable {α : Type} [Scalar α] {method : String}

/-- A method for the low-rank equation builds after one scheme. -/
theorem LowRankDle.Builds.exists_scheme {build : LowRankInputs α → Build (Expr α)} (h : Builds method build) :
    ∃ scheme : Scheme, ∀ i, (i.h ≠ none → i.hBlocks ≠ []) → scheme.Builds i (build i) := by
  cases h with
  | smith k =>
    refine ⟨.series k, fun i _ => ?_⟩
    intro K R _ _ _ φ ρ hρ n A P v c H S hi hP
    obtain rfl : P = _ := hP
    exact (hρ.grows_smithLowRank hi k).imp fun _ _ _ hy => ⟨hy, fun h => by cases h⟩
  | direct =>
    refine ⟨.system, fun i hne => ?_⟩
    intro K R _ _ _ φ ρ hρ n A P v c H S hi hP
    exact (hρ.grows_kroneckerLowRank hi hne hP).imp fun _ _ _ hy => ⟨hy.1, fun _ => hy.2⟩

/-- A method for the full equation builds after one scheme. -/
theorem Dle.Builds.exists_scheme {build : DleInputs α → Build (Expr α)} (h : Builds method build) :
    ∃ scheme : Scheme, ∀ i, scheme.Builds { a := i.a, v := i.v } (build i) := by
  cases h with
  | smith settings =>
    refine ⟨.series settings.terms, fun i => ?_⟩
    intro K R _ _ _ φ ρ hρ n A P v c H S hi hP
    obtain ⟨ha, hv, hc, hh, hshape, -, -⟩ := hi
    cases hc
    cases hh
    obtain rfl : P = _ := hP
    rw [← ofMatrix_toMatrix hshape] at hv
    exact (hρ.grows_smithDle ha hv settings).imp fun _ _ _ hy => ⟨hy, fun h => by cases h⟩
  | direct =>
    refine ⟨.system, fun i => ?_⟩
    intro K R _ _ _ φ ρ hρ n A P v c H S hi hP
    obtain ⟨ha, hv, hc, hh, hshape, -, -⟩ := hi
    cases hc
    cases hh
    rw [← ofMatrix_toMatrix hshape] at hv
    exact (hρ.grows_kroneckerDle hP ha hv).imp fun _ _ _ hy => ⟨hy.1, fun _ => hy.2⟩
  | handedOver h =>
    obtain ⟨scheme, hscheme⟩ := h.exists_scheme
    exact ⟨scheme, fun i => hscheme { a := i.a, v := i.v } (absurd rfl)⟩

end

/-! ## Functions -/

variable {K : Type} [ExactScalar K]

/-- The function gives the answers of the scheme for the data of the equation, with their rates of change. -/
structure Func.Follows (f : Func K) (scheme : Scheme) (e : LowRankDle) : Prop where
  inputShapes : f.inputShapes = [e.a, e.v] ++ e.c.toList ++ e.h.toList
  eval : ∀ {d : LowRankDle.Data K e} {args : List (Argument K)} {P}, args.map (·.toDense) = d.matrices →
    scheme.Regular d.matrix → scheme.Gives d.matrix (d.rhs K) P → f.eval args = .ok [d.answer P]
  singular : ∀ {d : LowRankDle.Data K e} {args : List (Argument K)}, args.map (·.toDense) = d.matrices →
    ¬ scheme.Regular d.matrix → f.eval args = .error (.singularMatrix (e.a.rows * e.a.rows))
  /-- Data over the dual numbers have the direction as their epsilon parts. -/
  rates : ∀ {d : LowRankDle.Data (DualNumber K) e} {args u : List (Argument K)} {values : List (Dense K)} {P},
    f.eval args = .ok values → u.map (·.shape) = f.inputShapes →
      ((args.zip u).map fun x => dual x.1.toDense x.2.toDense) = d.matrices →
        scheme.Regular d.matrix → scheme.Gives d.matrix (d.rhs K) P →
          ∀ y ∈ f.outputs, y.2.rate (f.binding args) (f.binding u) = (d.answer P).ep

section

variable {e : LowRankDle} {scheme : Scheme} {s : Nat} {output : String} {m : Build (Expr K)} {f : Func K}

/-- A function that is built after a scheme follows it. -/
theorem Func.BuiltBy.follows
    (h : f.BuiltBy (Problem.declared K e s).1.2 output m (Problem.declared K e s).2)
    (hm : scheme.Builds (Problem.declared K e s).1.1 m) (he : e.Valid) (hn : 0 < e.a.rows) :
    f.Follows scheme e where
  inputShapes := by
    rw [Func.inputShapes, h.inputs]
    obtain ⟨a, v, c, H, widths⟩ := e
    cases c <;> cases H <;> rfl
  eval {d args P} hargs hA hP := by
    have hshapes := (map_shape_toDense hargs).trans (d.map_shape_matrices (K := K) s)
    have hsymbols := h.forall₂_computes hshapes
    rw [hargs] at hsymbols
    exact h.eval_eq_ok hshapes ((hm (Expr.reading_computes _) (he.readAs_declare s d hsymbols)
      (hA.readAs_computes hP hn _)).imp fun _ _ _ hy => hy.1)
  singular {d args} hargs hA := by
    obtain ⟨rfl, hdet⟩ := Scheme.eq_system_of_not_regular hA
    have hshapes := (map_shape_toDense hargs).trans (d.map_shape_matrices (K := K) s)
    have hsymbols := (h.forall₂_computes hshapes).imp fun p d hd =>
      (⟨hd.shape, .inl hd.value⟩ : p.2.ComputesOr _ (.singularMatrix (e.a.rows * e.a.rows)) d)
    rw [hargs] at hsymbols
    exact h.eval_eq_error hshapes ((hm (Expr.reading_computesOr _ _) (he.readAs_declare s d hsymbols)
      (Expr.solvesAs_computesOr _ hn hdet 0)).imp fun _ _ _ hy => ⟨hy.1, hy.2 rfl⟩)
      fun _ hy => hy.exists_fails hn hdet
  rates {d args u values P} hv hu hduals hA hP y hy := by
    have hargs := Func.shapes_of_eval hv
    rw [Func.inputShapes, h.inputs] at hargs hu
    have hsymbols := h.forall₂_dualComputes hargs hu
    rw [hduals] at hsymbols
    have hrates := h.namedRates_eq hargs hu hv ((hm (Expr.reading_dualComputes _)
      (he.readAs_declare s d hsymbols) (hA.readAs_dualComputes hP _)).imp fun _ _ _ hy => hy.1)
    have hmem : (y.1, y.2.rate (f.binding args) (f.binding u)) ∈ f.namedRates args u :=
      List.mem_map.2 ⟨y, hy, rfl⟩
    rw [hrates] at hmem
    obtain ⟨_, -, hrate⟩ := List.mem_map.1 hmem
    exact (congrArg Prod.snd hrate).symm

end

/-! ## Solvers -/

/-- The function of a solver is built by its method. -/
theorem Solver.MadeBy.builtBy {σ : Type} {ι : Type → Type} [Problem σ ι] {α : Type} {solver : Solver σ ι α}
    {problem : σ} {build : ι α → Build (Expr α)} {s s' : Nat} (h : solver.MadeBy problem build s s')
    (hdeclared : Declared (Problem.declared α problem s).1.2 (Problem.declared α problem s).2)
    (hnumbered : solver.function.NumberedBelow s') :
    solver.function.BuiltBy (Problem.declared α problem s).1.2 (Problem.output σ)
      (build (Problem.declared α problem s).1.1) (Problem.declared α problem s).2 := by
  obtain ⟨-, -, y, hy, -, hmake⟩ := h
  obtain ⟨-, hinputs, houtputs⟩ := Func.make_eq_ok hmake
  refine ⟨hdeclared, hinputs, ?_, ?_⟩
  · rw [houtputs, hy]
  · rwa [hy]

section

variable {name plugin : String} {o : Options} {s s' : Nat}

theorem LowRankDle.exists_follows {e : LowRankDle} {solver : Solver LowRankDle LowRankInputs K}
    (h : (Solver.make name plugin e o).run.run s = (.ok solver, s')) (hn : 0 < e.a.rows) :
    ∃ scheme : Scheme, solver.function.Follows scheme e := by
  obtain ⟨build, hbuilds, hmade⟩ := exists_madeBy h
  obtain ⟨scheme, hscheme⟩ := hbuilds.exists_scheme
  exact ⟨scheme, (hmade.builtBy (declared_declare e s) (sound h).numbered).follows
    (hscheme _ (hBlocks_declare_ne_nil e s)) (validate_eq_ok.1 hmade.valid) hn⟩

theorem Dle.exists_follows {e : Dle} {solver : Solver Dle DleInputs K}
    (h : (Solver.make name plugin e o).run.run s = (.ok solver, s')) (hn : 0 < e.a.rows) :
    ∃ scheme : Scheme, solver.function.Follows scheme { a := e.a, v := e.v } := by
  obtain ⟨build, hbuilds, hmade⟩ := exists_madeBy h
  obtain ⟨scheme, hscheme⟩ := hbuilds.exists_scheme
  have hbuilt := hmade.builtBy (declared_declare e s) (sound h).numbered
  -- the symbols are those of the low-rank equation without factors
  have hm : scheme.Builds (Problem.declared K ({ a := e.a, v := e.v } : LowRankDle) s).1.1
    (build (Problem.declared K e s).1.1) := hscheme (Problem.declared K e s).1.1
  exact ⟨scheme, Func.BuiltBy.follows hbuilt hm (valid_lowRank (validate_eq_ok.1 hmade.valid)) hn⟩

end

end Lyapunov
