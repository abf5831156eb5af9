/-
The functions that solvers are made of. A method that builds an expression of the right shape from nodes
that fit has a function, and a plugin that builds like the method has a solver with that function.
-/
import Lyapunov.Proofs.Derivative.Extension
import Lyapunov.Proofs.Func.Symbols
import Lyapunov.Solver

namespace Lyapunov

open Build

theorem TryBuild.run_liftM_ok {β : Type} {x : Except Error β} {b : β} (h : x = .ok b) (n : Nat) :
    (liftM x : TryBuild β).run.run n = (.ok b, n) := by
  rw [h]
  rfl

theorem TryBuild.run_liftM_build {β : Type} (m : Build β) (n : Nat) :
    (liftM m : TryBuild β).run.run n = (.ok (m.run n).1, (m.run n).2) := rfl

variable {σ : Type} {ι : Type → Type} [Problem σ ι]

namespace Problem

/-- The data of an equation as expressions, the symbols they are made of, and the number of the node
that is created next, when the symbols are numbered from `s` on. -/
def declared (α : Type) (problem : σ) (s : Nat) : (ι α × List (String × Expr α)) × Nat :=
  (Problem.declare problem).run s

/-- The function of the data of an equation whose value is what `build` gives. -/
def function {α : Type} (name : String) (problem : σ) (build : ι α → Build (Expr α)) :
    TryBuild (Func α) := do
  let (inputs, symbols) ← Problem.declare problem
  let output ← build inputs
  Func.make name symbols [(Problem.output σ, output)]

theorem run_function {α : Type} (name : String) (problem : σ) (build : ι α → Build (Expr α)) (s : Nat) :
    (function name problem build).run.run s =
      let ((inputs, symbols), n) := declared α problem s
      (Func.make name symbols [(Problem.output σ, ((build inputs).run n).1)], ((build inputs).run n).2) := rfl

/-- Some plugin has the given name, and with the given options it builds like `build`. -/
def Offers (σ : Type) {ι : Type → Type} [Problem σ ι] {α : Type} [Scalar α] (plugin : String) (o : Options)
    (build : ι α → Build (Expr α)) : Prop :=
  ∃ p r, Plugin.lookup? (Problem.plugins σ α) plugin = some p ∧ o.resolve p.schemas = .ok r ∧
    ∀ inputs, p.build inputs r = liftM (build inputs)

end Problem

/-- The plugin makes a solver with the function `f` when it is given the options. The nodes of the solver are
numbered from `s` on and below `s'`. -/
def Solver.Makes {K : Type} [Scalar K] (name plugin : String) (problem : σ) (o : Options) (s : Nat)
    (f : Func K) (s' : Nat) : Prop :=
  ∃ solver : Solver σ ι K, (Solver.make name plugin problem o).run.run s = (.ok solver, s') ∧
    solver.function = f

/-- The function `f` of the equation, made with symbols and nodes that are numbered from `s` on and below
`s'`, and what is known of it whatever it computes. -/
structure Problem.IsFunction {K : Type} [Scalar K] (name : String) (problem : σ)
    (build : ι K → Build (Expr K)) (s : Nat) (f : Func K) (s' : Nat) : Prop where
  run : (Problem.function name problem build).run.run s = (.ok f, s')
  built : f.BuiltBy (declared K problem s).1.2 (Problem.output σ) (build (declared K problem s).1.1)
    (declared K problem s).2
  numbered : f.NumberedBelow s'
  contractible : ∀ e ∈ f.nodes, e.Contractible
  outputShapes : f.outputShapes = [Problem.outputShape problem]
  /-- It is the function of the solvers that plugins make of the method. -/
  makes : ∀ plugin o, Problem.Offers σ plugin o build → Solver.Makes name plugin problem o s f s'

/-- The method gives the function `f`, and so do the solvers that the plugin makes with the options. -/
structure Solver.HasFunction {K : Type} [Scalar K] (name plugin : String) (problem : σ)
    (build : ι K → Build (Expr K)) (options : Options → Prop) (s : Nat) (f : Func K) (s' : Nat) : Prop where
  run : (Problem.function name problem build).run.run s = (.ok f, s')
  makes : ∀ o, options o → Solver.Makes name plugin problem o s f s'

theorem Problem.IsFunction.hasFunction {K : Type} [Scalar K] {name plugin : String} {problem : σ}
    {build : ι K → Build (Expr K)} {options : Options → Prop} {s : Nat} {f : Func K} {s' : Nat}
    (h : Problem.IsFunction name problem build s f s')
    (hoffers : ∀ o, options o → Problem.Offers σ plugin o build) :
    Solver.HasFunction name plugin problem build options s f s' :=
  ⟨h.run, fun o ho => h.makes plugin o (hoffers o ho)⟩

/-- A plugin that builds like a method makes a solver of it. -/
theorem Problem.Offers.makes {α : Type} [Scalar α] {name plugin : String} {problem : σ} {o : Options}
    {build : ι α → Build (Expr α)} {s : Nat} {f : Func α} (h : Problem.Offers σ plugin o build)
    (hvalid : Problem.validate problem = .ok ())
    (hshape : ((build (declared α problem s).1.1).run (declared α problem s).2).1.shape =
      Problem.outputShape problem)
    (hf : Func.make name (declared α problem s).1.2 [(Problem.output σ,
      ((build (declared α problem s).1.1).run (declared α problem s).2).1)] = .ok f) :
    Solver.Makes name plugin problem o s f
      ((build (declared α problem s).1.1).run (declared α problem s).2).2 := by
  obtain ⟨p, r, hlookup, hresolve, hbuild⟩ := h
  refine ⟨⟨name, p, problem, o, r, f⟩, ?_, rfl⟩
  have hdeclare : (liftM (Problem.declare problem) : TryBuild (ι α × List (String × Expr α))).run.run s =
      (.ok (declared α problem s).1, (declared α problem s).2) := rfl
  unfold Solver.make
  rw [hlookup]
  dsimp only
  rw [TryBuild.run_bind_ok (TryBuild.run_liftM_ok hvalid s),
    TryBuild.run_bind_ok (TryBuild.run_liftM_ok hresolve s),
    TryBuild.run_bind_ok hdeclare, hbuild,
    TryBuild.run_bind_ok (TryBuild.run_liftM_build _ _),
    TryBuild.run_bind_ok (TryBuild.run_liftM_ok (Shape.require_eq_ok.2 (beq_iff_eq.2 hshape)) _),
    TryBuild.run_bind_ok (TryBuild.run_liftM_ok hf _)]
  rfl

variable {K : Type} [ExactScalar K] {problem : σ} {build : ι K → Build (Expr K)} {s : Nat}

/-- A method that builds an expression of the shape of the output has a function. -/
theorem Problem.exists_isFunction (hvalid : Problem.validate problem = .ok ())
    (hdeclared : Declared (declared K problem s).1.2 (declared K problem s).2) {d : Dense K}
    (hd : d.shape = Problem.outputShape problem)
    (hm : Grows (Readable (Expr.FormedAs (nodesOf (declared K problem s).1.2)))
      (nodesOf (declared K problem s).1.2) (build (declared K problem s).1.1)
      (Reads (Expr.FormedAs (nodesOf (declared K problem s).1.2)) d)) (name : String) :
    ∃ f s', Problem.IsFunction name problem build s f s' := by
  obtain ⟨hshape, f, hf, hbuilt, hcontractible⟩ :=
    hdeclared.exists_make_of_formedAs hm name (Problem.output σ)
  refine ⟨f, _, (run_function name problem build s).trans (congrArg (·, _) hf), hbuilt, hbuilt.numbered,
    hcontractible, ?_, fun plugin o hoffers => hoffers.makes hvalid (hshape.trans hd) hf⟩
  rw [Func.outputShapes, hbuilt.outputs, ← hd, ← hshape]
  rfl

end Lyapunov
