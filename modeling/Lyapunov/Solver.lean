/-
Solvers: a method applied to an equation with given shapes and options, compiled into a function of
the data.
-/
import Lyapunov.Func.Reverse
import Lyapunov.Method.Registry

namespace Lyapunov

/-- A class of equations: `σ` describes the shapes of one, `ι` holds the expressions for its data. -/
class Problem (σ : Type) (ι : outParam (Type → Type)) where
  /-- The name of the class in messages. -/
  kind : String
  /-- The name of the output of a solver. -/
  output : String
  validate : σ → Except Error Unit
  outputShape : σ → Shape
  /-- New symbols for the data, under the names of the inputs. -/
  declare : {α : Type} → σ → Build (ι α × List (String × Expr α))
  plugins : (α : Type) → [Scalar α] → List (Plugin (ι α) α)

instance : Problem Dle DleInputs where
  kind := "DLE"
  output := "p"
  validate := Dle.validate
  outputShape := Dle.outputShape
  declare := Dle.declare
  plugins α := Dle.plugins α

instance : Problem LowRankDle LowRankInputs where
  kind := "LR-DLE"
  output := "y"
  validate := LowRankDle.validate
  outputShape := LowRankDle.outputShape
  declare := LowRankDle.declare
  plugins α := LowRankDle.plugins α

/-- A solver for the equation `problem`. -/
structure Solver (σ : Type) (ι : Type → Type) (α : Type) where
  name : String
  plugin : Plugin (ι α) α
  problem : σ
  /-- The options as they were given. -/
  userOptions : Options
  /-- The options with all defaults filled in. -/
  options : Options
  function : Func α

namespace Solver

variable {σ : Type} {ι : Type → Type} [Problem σ ι] {α : Type} [Scalar α]

/-- A solver that uses the method of the given name. -/
def make (name plugin : String) (problem : σ) (userOptions : Options) :
    TryBuild (Solver σ ι α) := do
  match Plugin.lookup? (Problem.plugins σ α) plugin with
  | none => throw (.unknownSolver (Problem.kind σ) plugin)
  | some plugin =>
    Problem.validate problem
    let options ← userOptions.resolve plugin.schemas
    let (inputs, symbols) ← Problem.declare problem
    let output ← plugin.build inputs options
    let expected := Problem.outputShape problem
    output.shape.require (output.shape == expected) (.output expected (Problem.output σ))
    let function ← Func.make name symbols [(Problem.output σ, output)]
    return { name, plugin, problem, userOptions, options, function }

/-- A solver for the same equation made in the same way, from new symbols. -/
def rebuild (s : Solver σ ι α) : TryBuild (Solver σ ι α) :=
  make s.name s.plugin.name s.problem s.userOptions

/-- The solution for data in the order of the inputs. -/
def eval (s : Solver σ ι α) (args : List (Argument α)) : Except Error (Dense α) := do
  return (← s.function.eval args).headD Tape.noValue

/-- The solution by its name, for data by the names of the inputs. -/
def call (s : Solver σ ι α) (args : List (String × Argument α)) :
    Except Error (List (String × Dense α)) :=
  s.function.call args

/-- The solver's function with its rates of change in `n` directions. -/
def forward (s : Solver σ ι α) (n : Nat) : TryBuild (Func α) := s.function.forward n

/-- The solver's function with its adjoints in `n` directions. -/
def reverse (s : Solver σ ι α) (n : Nat) : TryBuild (Func α) := s.function.reverse n

end Solver

/-- The solution of the full equation for the given matrices. -/
def Solver.solveDle {α : Type} [Scalar α] (s : Solver Dle DleInputs α) (a v : Argument α) :
    Except Error (Dense α) :=
  s.eval [a, v]

/-- The answer of the low-rank equation for the given matrices. -/
def Solver.solveLowRank {α : Type} [Scalar α] (s : Solver LowRankDle LowRankInputs α)
    (a v : Argument α) (c h : Option (Argument α)) : Except Error (Dense α) :=
  s.eval ([a, v] ++ c.toList ++ h.toList)

end Lyapunov
