/-
The discrete Lyapunov equation `P = A P A' + V`: the shapes of its data, and the symbols that stand
for the data in a solver.
-/
import Lyapunov.Error
import Lyapunov.Expr.Basic

namespace Lyapunov

/-- The shapes of `A` and `V`. -/
structure Dle where
  a : Shape
  v : Shape
deriving DecidableEq

/-- The expressions for `A` and `V`. -/
structure DleInputs (α : Type) where
  a : Expr α
  v : Expr α

namespace Dle

/-- The equation for matrices with `n` rows and columns. -/
def square (n : Nat) : Dle := ⟨.square n, .square n⟩

/-- Refuses shapes for which the equation makes no sense. -/
def validate (e : Dle) : Except Error Unit := do
  e.a.require e.a.isSquare .squareA
  e.v.require (e.v == e.a) (.sameAsA e.a)

/-- The shape of `P`. -/
def outputShape (e : Dle) : Shape := e.a

/-- New symbols for the data, under the names of the inputs. -/
def declare {α : Type} (e : Dle) : Build (DleInputs α × List (String × Expr α)) := do
  let a ← Expr.newSymbol "A" e.a
  let v ← Expr.newSymbol "V" e.v
  return (⟨a, v⟩, [("a", a), ("v", v)])

end Dle

end Lyapunov
