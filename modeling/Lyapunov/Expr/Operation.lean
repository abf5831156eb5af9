/-
The operations of expressions. An operation takes one or two matrices, or leaves a constant or a
symbol. For each there is a name, the shape of its result, the condition on the shapes of its
operands, and its value.
-/
import Lyapunov.Dense.Kronecker
import Lyapunov.Dense.Solve
import Lyapunov.Error

namespace Lyapunov

/-- Refuses a shape unless the condition on it holds. -/
def Shape.require (condition : Bool) (requirement : ShapeRequirement) (got : Shape) :
    Except Error Unit :=
  if condition then pure () else throw (.shapeMismatch requirement got)

/-- The operations on one matrix. -/
inductive UnaryOp (α : Type) where
  | neg
  | scale (factor : α)
  | transpose
  | reshape (shape : Shape)

/-- The operations on two matrices. -/
inductive BinaryOp where
  | add
  | matmul
  | kron
  /-- The first operand's blocks, each summed against the second operand. -/
  | kronContractLeft
  /-- The sum of the first operand's blocks, weighted by the second operand. -/
  | kronContractRight
  /-- The solution of a linear system: its matrix, then its right-hand side. -/
  | solve
  /-- The first operand, provided that the second is one. -/
  | assertion (message : String)

namespace UnaryOp

variable {α : Type}

def name : UnaryOp α → String
  | .neg => "neg"
  | .scale _ => "scale"
  | .transpose => "transpose"
  | .reshape _ => "reshape"

/-- The shape of the result. -/
def shape : UnaryOp α → Shape → Shape
  | .neg, s => s
  | .scale _, s => s
  | .transpose, s => s.transpose
  | .reshape t, _ => t

/-- Refuses an operand whose shape does not fit. -/
def check : UnaryOp α → Shape → Except Error Unit
  | .reshape t, s => s.require (s.size == t.size) (.reshaped t.size)
  | _, _ => pure ()

def eval [Scalar α] : UnaryOp α → Dense α → Dense α
  | .neg, x => x.neg
  | .scale c, x => x.scale c
  | .transpose, x => x.transpose
  | .reshape s, x => x.reshape s

end UnaryOp

namespace BinaryOp

def name : BinaryOp → String
  | .add => "add"
  | .matmul => "mul"
  | .kron => "kron"
  | .kronContractLeft => "kron_contract_left"
  | .kronContractRight => "kron_contract_right"
  | .solve => "solve"
  | .assertion _ => "assertion"

/-- The shape of the result. -/
def shape : BinaryOp → Shape → Shape → Shape
  | .add, s, _ => s
  | .matmul, s, t => ⟨s.rows, t.cols⟩
  | .kron, s, t => ⟨s.rows * t.rows, s.cols * t.cols⟩
  | .kronContractLeft, s, t => ⟨s.rows / t.rows, s.cols / t.cols⟩
  | .kronContractRight, s, t => ⟨s.rows / t.rows, s.cols / t.cols⟩
  | .solve, s, t => ⟨s.cols, t.cols⟩
  | .assertion _, s, _ => s

/-- Whether a matrix of shape `s` consists of whole blocks of shape `t`, and `t` is not empty. -/
def blocksOf (s t : Shape) : Bool := t.size != 0 && s.rows % t.rows == 0 && s.cols % t.cols == 0

/-- Refuses operands whose shapes do not fit. -/
def check : BinaryOp → Shape → Shape → Except Error Unit
  | .add, s, t => t.require (s == t) (.summand s)
  | .matmul, s, t => t.require (s.cols == t.rows) (.factor s)
  | .kron, _, _ => pure ()
  | .kronContractLeft, s, t => t.require (blocksOf s t) (.kroneckerFactor s)
  | .kronContractRight, s, t => t.require (blocksOf s t) (.kroneckerFactor s)
  | .solve, s, t => s.require (s.isSquare && s.rows == t.rows) (.system t.rows)
  | .assertion _, _, t => t.require t.isScalar .scalarCondition

/-- The value on two matrices. A system fails when it is singular and its right-hand side has a
column; without columns the solution is empty. -/
def eval {α : Type} [Scalar α] : BinaryOp → Dense α → Dense α → Except Error (Dense α)
  | .add, x, y => pure (x.add y)
  | .matmul, x, y => pure (x.mul y)
  | .kron, x, y => pure (x.kron y)
  | .kronContractLeft, x, y => pure (x.kronContractLeft y)
  | .kronContractRight, x, y => pure (x.kronContractRight y)
  | .solve, m, b =>
    if b.cols = 0 then pure (.zero ⟨m.cols, 0⟩)
    else if m.rows = 0 then throw .emptySystem
    else match m.solve? b with
      | some x => pure x
      | none => throw (.singularMatrix m.rows)
  | .assertion message, x, condition =>
    if condition.get 0 0 == 1 then pure x else throw (.assertionFailed message)

end BinaryOp

end Lyapunov
