/-
The direct method. With the entries of matrices written as columns, `P = A P A' + V` is the linear
system `(I - A ⊗ A) vec P = vec V`, which is solved exactly.
-/
import Lyapunov.Equation.Dle
import Lyapunov.Equation.LowRank
import Lyapunov.Plugin

namespace Lyapunov

namespace Kronecker

variable {α : Type} [Scalar α]

/-- The solution of `P = a P a' + rhs`. -/
def solve (a rhs : Expr α) : Build (Expr α) := do
  let n := a.shape.rows
  let identity ← Expr.newConstant (.identity (n * n))
  let system ← identity.sub (← a.kron a)
  (← system.solve (← rhs.vectorize)).reshape (.square n)

/-- The solution for the symmetric part of `v`. -/
def dle (a v : Expr α) : Build (Expr α) := do solve a (← v.symmetrize)

/-- The answer of the low-rank equation for the symmetric part of `v`. -/
def lowRank (inputs : LowRankInputs α) : Build (Expr α) := do
  let v ← inputs.v.symmetrize
  let rhs ← match inputs.c with
    | none => pure v
    | some c => c.congruence v
  inputs.project (← solve inputs.a rhs)

variable (α)

/-- The direct method for the full equation. -/
def dlePlugin : Plugin (DleInputs α) α where
  name := "simple"
  doc := "Exact solve of (I - A ⊗ A) vec(P) = vec(V) with a dense LU factorization."
  version := Plugin.interfaceVersion
  options := []
  build inputs options := do
    options.rejectPositiveDefinite
    dle inputs.a inputs.v

/-- The direct method for the low-rank equation. -/
def lowRankPlugin : Plugin (LowRankInputs α) α where
  name := "simple"
  doc := "Exact solve of the Kronecker system for P = A P A' + C V C'."
  version := Plugin.interfaceVersion
  options := []
  build inputs options := do
    options.rejectPositiveDefinite
    lowRank inputs

end Kronecker

end Lyapunov
