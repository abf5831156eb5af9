/-
The operators that build expressions from expressions. Each creates its nodes and returns the last
one; only a change to the shape that a matrix already has returns the matrix itself.
-/
import Lyapunov.Expr.Basic

namespace Lyapunov.Expr

variable {α : Type}

def neg (x : Expr α) : Build (Expr α) := newUnary .neg x

def add (x y : Expr α) : Build (Expr α) := newBinary .add x y

/-- `x - y`, as the sum of `x` and `-y`. -/
def sub (x y : Expr α) : Build (Expr α) := do x.add (← y.neg)

def scale (factor : α) (x : Expr α) : Build (Expr α) := newUnary (.scale factor) x

/-- `x / divisor`, as a product with the inverse. -/
def divide [One α] [Div α] (x : Expr α) (divisor : α) : Build (Expr α) := scale (1 / divisor) x

def transpose (x : Expr α) : Build (Expr α) := newUnary .transpose x

def matmul (x y : Expr α) : Build (Expr α) := newBinary .matmul x y

/-- `x y z`, with the last two multiplied first. -/
def mul3 (x y z : Expr α) : Build (Expr α) := do x.matmul (← y.matmul z)

/-- `a x a'`. -/
def congruence (a x : Expr α) : Build (Expr α) := do mul3 a x (← a.transpose)

/-- `(x + x') / 2`. -/
def symmetrize [One α] [Add α] [Div α] (x : Expr α) : Build (Expr α) := do
  (← x.add (← x.transpose)).divide (1 + 1)

def kron (x y : Expr α) : Build (Expr α) := newBinary .kron x y

def kronContractLeft (g b : Expr α) : Build (Expr α) := newBinary .kronContractLeft g b

def kronContractRight (g a : Expr α) : Build (Expr α) := newBinary .kronContractRight g a

/-- The entries in column order under another shape; under its own shape the matrix itself. -/
def reshape (x : Expr α) (shape : Shape) : Build (Expr α) :=
  if x.shape = shape then pure x else newUnary (.reshape shape) x

/-- The entries in column order as one column. -/
def vectorize (x : Expr α) : Build (Expr α) := x.reshape (.vector x.shape.size)

/-- The solution of the system with matrix `m` and right-hand side `b`. -/
def solve (m b : Expr α) : Build (Expr α) := newBinary .solve m b

/-- `x`, provided that the condition evaluates to one. -/
def attachAssert (x condition : Expr α) (message : String) : Build (Expr α) :=
  newBinary (.assertion message) x condition

end Lyapunov.Expr
