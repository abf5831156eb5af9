/-
The methods for the two classes of equations. One of the methods for the full equation takes it as a
low-rank equation without factors and leaves it to a method for those.
-/
import Lyapunov.Method.Kronecker
import Lyapunov.Method.Smith

namespace Lyapunov

variable (α : Type) [Scalar α]

/-- The methods for the low-rank equation. -/
def LowRankDle.plugins : List (Plugin (LowRankInputs α) α) :=
  [Smith.lowRankPlugin α, Kronecker.lowRankPlugin α]

namespace LowRankMethod

/-- The options that name the method for the low-rank equation and its own options. -/
def options : List OptionSpec :=
  [{ name := "lr_dle_solver", kind := .str, default := .str "fixed_smith"
     description := "Low-rank DLE solver to use" },
   { name := "lr_dle_solver_options", kind := .dict, default := .dict []
     description := "Options passed to the low-rank DLE solver" }]

/-- The solution of the low-rank equation without factors by the method that the options name. -/
def build (inputs : DleInputs α) (o : Options) : TryBuild (Expr α) := do
  let name := ((o.get? "lr_dle_solver").bind (·.asStr?)).getD "fixed_smith"
  let inner := ((o.get? "lr_dle_solver_options").bind (·.asDict?)).getD .empty
  match Plugin.lookup? (LowRankDle.plugins α) name with
  | none => throw (.unknownSolver "LR-DLE" name)
  | some plugin =>
    plugin.build { a := inputs.a, v := inputs.v } (← inner.resolve plugin.schemas)

/-- The method that hands the equation over. -/
def dlePlugin : Plugin (DleInputs α) α where
  name := "lrdle"
  doc := "Solve the DLE with a low-rank DLE solver, taking C as the identity."
  version := Plugin.interfaceVersion
  options := options
  build := build α

end LowRankMethod

/-- The methods for the full equation. -/
def Dle.plugins : List (Plugin (DleInputs α) α) :=
  [Smith.dlePlugin α, LowRankMethod.dlePlugin α, Kronecker.dlePlugin α]

end Lyapunov
