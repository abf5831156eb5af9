/-
What evaluating a solver ends in, over scalars of which no law is assumed. Smith's method always gives a
matrix of the shape of the answer. The direct method gives one or reports a singular system, provided that
there are equations to solve: for a matrix `A` without rows it has no answer.
-/
import Lyapunov.Proofs.Solver.Kronecker
import Lyapunov.Proofs.Solver.Made

namespace Lyapunov.Solver

open Build Lyapunov.Dense

section

variable {σ : Type} {ι : Type → Type} [Problem σ ι] {α : Type} [Scalar α]

/-- What evaluating a solver ends in, for `n` rows of `A`. -/
structure Evaluates (solver : Solver σ ι α) (problem : σ) (n : Nat) (args : List (Argument α)) : Prop where
  smith : solver.methodName = "fixed_smith" →
    ∃ y, solver.eval args = .ok y ∧ y.shape = Problem.outputShape problem
  direct : solver.methodName = "simple" → 0 < n →
    (∃ y, solver.eval args = .ok y ∧ y.shape = Problem.outputShape problem) ∨
      solver.eval args = .error (.singularMatrix (n * n))
  empty : solver.methodName = "simple" → n = 0 → solver.eval args = .error .emptySystem

variable {solver : Solver σ ι α} {problem : σ} {n s s' : Nat} {args : List (Argument α)}

namespace Sound

variable (h : solver.Sound problem n s s') (hargs : args.map (·.shape) = solver.function.inputShapes)

include h hargs

theorem endsIn_inputs (E : Error → Prop) :
    ∀ e ∈ nodesOf solver.function.inputs, e.EndsIn (solver.function.binding args) E :=
  fun _ he => .inl (h.numbered.exists_computes_input hargs he)

/-- There is an answer of the shape of the output, unless a system fails. -/
theorem eval_eq_ok_or : (∃ y, solver.eval args = .ok y ∧ y.shape = Problem.outputShape problem) ∨
    solver.methodName = "simple" ∧ solver.eval args = .error (Expr.systemError n) := by
  obtain ⟨hnodes, -⟩ := h.nodes
    (Expr.kept_endsIn (solver.function.binding args) (fun err =>
      solver.methodName = "simple" ∧ err = Expr.systemError n))
    (fun hdirect => Expr.keptBySystem_endsIn _ ⟨hdirect, rfl⟩) (h.endsIn_inputs hargs _)
  have hends : ∀ e, Expr.Reachable (solver.function.outputs.map (·.2)) e → e.EndsIn _ _ :=
    fun e he => hnodes e (solver.function.mem_nodes_of_reachable he)
  rcases Func.eval_eq_ok_or h.numbered.isDag hargs fun e he =>
    (hends e he).imp_left fun ⟨v, hv⟩ => ⟨v, hv.value⟩
    with ⟨values, hvalues⟩ | ⟨_, ⟨hdirect, rfl⟩, herror⟩
  · obtain ⟨y, hy, hshape⟩ := h.output
    have houtputs := (Func.eval_eq_ok h.numbered.isDag hargs).1 hvalues
    have hroot : Expr.Reachable (solver.function.outputs.map (·.2)) y := by
      rw [hy]
      exact .root (List.mem_singleton_self y)
    rw [hy] at houtputs
    cases houtputs with
    | @cons _ v _ _ hv hrest =>
      cases hrest
      refine .inl ⟨v, by rw [eval, hvalues]; rfl, ?_⟩
      rcases hends y hroot with ⟨v', hv'⟩ | ⟨_, -, herror⟩
      · rw [hv'.value] at hv
        cases hv
        exact hv'.shape.symm.trans hshape
      · rw [herror] at hv
        cases hv
  · exact .inr ⟨hdirect, by rw [eval, herror]; rfl⟩

/-- Without equations the direct method has no answer. -/
theorem eval_eq_emptySystem (hdirect : solver.methodName = "simple") (hn : n = 0) :
    solver.eval args = .error .emptySystem := by
  subst hn
  obtain ⟨hnodes, hsystem⟩ := h.nodes
    (Expr.kept_endsIn (solver.function.binding args) (· = Expr.systemError 0))
    (fun _ => Expr.keptBySystem_endsIn _ rfl) (h.endsIn_inputs hargs _)
  obtain ⟨y, hy, -⟩ := h.output
  have hmem : (Problem.output σ, y) ∈ solver.function.outputs := by
    rw [hy]
    exact List.mem_singleton_self _
  obtain ⟨A, W, i, m, b, hm, hb, hbelow⟩ := hsystem hdirect _ hmem
  have hfails := Expr.value_solve_empty hm.holds hb.holds hm.shape hb.shape i
  have herror : solver.function.eval args = .error .emptySystem := by
    refine Func.eval_eq_error h.numbered.isDag hargs (fun e he => ?_)
      ⟨y, List.mem_map.2 ⟨_, hmem, rfl⟩, hbelow⟩ hfails
    rcases hnodes e (solver.function.mem_nodes_of_reachable he) with ⟨v, hv⟩ | ⟨_, rfl, hv⟩
    exacts [.inl ⟨v, hv.value⟩, .inr hv]
  rw [eval, herror]
  rfl

theorem evaluates : solver.Evaluates problem n args where
  smith hmethod := (h.eval_eq_ok_or hargs).resolve_right fun ⟨hdirect, _⟩ => by
    rw [hmethod] at hdirect
    exact absurd hdirect (by decide)
  direct _ hn := by
    refine (h.eval_eq_ok_or hargs).imp_right fun ⟨_, herror⟩ => ?_
    rwa [Expr.systemError, if_neg hn.ne'] at herror
  empty := h.eval_eq_emptySystem hargs

end Sound

end

/-! ## The two equations -/

section

variable {α : Type} [Scalar α]

/-- The direct method has a solver for every number of rows, zero included. -/
theorem exists_make_dle (n : Nat) (name : String) (s : Nat) : ∃ (solver : Solver Dle DleInputs α) (s' : Nat),
    (make name "simple" (Dle.square n) .empty).run.run s = (.ok solver, s') := by
  obtain ⟨hshape, f, hf⟩ :=
    (Dle.Builds.direct (α := α)).exists_make (e := Dle.square n) rfl name (Problem.output Dle) s
  obtain ⟨r, hr⟩ := Kronecker.accepted_empty
  obtain ⟨solver, hmake, -⟩ := (Kronecker.offers_dle hr).makes (Dle.validate_eq_ok.2 rfl) hshape hf
  exact ⟨solver, _, hmake⟩

/-- Evaluating any solver that was made, for data of the shapes of its equation, ends in an answer of the
right shape or, by the direct method, in the report of a singular system; but a system without equations
is not reported as singular. -/
theorem evaluates_of_make (name plugin : String) (o : Options) (s s' : Nat) :
    (∀ (e : Dle) (solver : Solver Dle DleInputs α),
      (make name plugin e o).run.run s = (.ok solver, s') →
        (solver.methodName = "fixed_smith" ∨ solver.methodName = "simple") ∧
          ∀ args : List (Argument α), args.map (·.shape) = [e.a, e.v] →
            solver.Evaluates e e.a.rows args) ∧
    (∀ (e : LowRankDle) (solver : Solver LowRankDle LowRankInputs α),
      (make name plugin e o).run.run s = (.ok solver, s') →
        (solver.methodName = "fixed_smith" ∨ solver.methodName = "simple") ∧
          ∀ args : List (Argument α), args.map (·.shape) = [e.a, e.v] ++ e.c.toList ++ e.h.toList →
            solver.Evaluates e e.a.rows args) := by
  refine ⟨fun e solver h => ?_, fun e solver h => ?_⟩
  · have hsound := Dle.sound h
    exact ⟨hsound.method, fun args hargs => hsound.evaluates (hargs.trans (inputShapes_dle hsound).symm)⟩
  · have hsound := LowRankDle.sound h
    exact ⟨hsound.method, fun args hargs => hsound.evaluates (hargs.trans (inputShapes_lowRank hsound).symm)⟩

end

/-- A solver for numbers, and one for an equation with both factors. -/
theorem evaluates_numbers :
    (∃ (solver : Solver Dle DleInputs ℚ) (s' : Nat),
      (make "f" "simple" (Dle.square 1) .empty).run.run 0 = (.ok solver, s') ∧
        solver.Evaluates (Dle.square 1) 1 [.scalar 2, .scalar 3]) ∧
    ∃ (solver : Solver LowRankDle LowRankInputs ℚ) (s' : Nat),
      (make "g" "fixed_smith" LowRankDle.twoBlocks (Smith.termOptions 2)).run.run 0 = (.ok solver, s') ∧
        solver.Evaluates LowRankDle.twoBlocks 2
          (LowRankDle.twoBlocksData.matrices.map .dense) := by
  constructor
  · obtain ⟨solver, s', hmake⟩ := exists_make_dle (α := ℚ) 1 "f" 0
    exact ⟨solver, s', hmake, ((evaluates_of_make "f" "simple" .empty 0 s').1 _ solver hmake).2 _ rfl⟩
  · have hvalid : LowRankDle.twoBlocks.Valid := LowRankDle.validate_eq_ok.1 rfl
    have htwo : 2 < 2 ^ 63 := by decide
    obtain ⟨solver, s', hmake⟩ := Smith.exists_make_lowRank (K := ℚ) hvalid htwo "g" 0
    exact ⟨solver, s', hmake, ((evaluates_of_make "g" "fixed_smith" _ 0 s').2 _ solver hmake).2 _ rfl⟩

/-- For matrices without entries the direct method neither answers nor reports a singular system. -/
theorem exists_eval_eq_emptySystem : ∃ (solver : Solver Dle DleInputs ℚ) (s' : Nat),
    (make "f" "simple" (Dle.square 0) .empty).run.run 0 = (.ok solver, s') ∧
      ¬ ((∃ y, solver.eval [.dense (.zero ⟨0, 0⟩), .dense (.zero ⟨0, 0⟩)] = .ok y ∧
          y.shape = (Dle.square 0).outputShape) ∨
        ∃ m, solver.eval [.dense (.zero ⟨0, 0⟩), .dense (.zero ⟨0, 0⟩)] = .error (.singularMatrix m)) := by
  obtain ⟨solver, s', hmake⟩ := exists_make_dle (α := ℚ) 0 "f" 0
  refine ⟨solver, s', hmake, ?_⟩
  have hsound := Dle.sound hmake
  have hmethod := methodName_eq (plugin_name_eq hmake) (by decide)
  rw [hsound.eval_eq_emptySystem ((inputShapes_dle hsound).symm ▸ rfl) hmethod rfl]
  rintro (⟨y, hy, -⟩ | ⟨m, hm⟩)
  · cases hy
  · cases hm

end Lyapunov.Solver
