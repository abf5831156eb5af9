/-
Matrix expressions. An expression is a node with a number, so that a node used in many places can be
recognised: `Build` numbers the nodes in the order of their creation, and two handles stand for the
same node when their numbers agree. The shape of a node follows from its operation and the shapes
of its operands and is kept in the node.
-/
import Lyapunov.Expr.Operation

namespace Lyapunov

section

-- the scalars, of which the field `shape` is a function
variable (α : Type)

/-- A node of an expression graph: a named symbol, a constant, or an operation on other nodes. -/
inductive Expr (α : Type) where
  | symbol (id : Nat) (name : String) (symbolShape : Shape)
  | constant (id : Nat) (value : Dense α)
  | unary (id : Nat) (op : UnaryOp α) (x : Expr α)
  | binary (id : Nat) (op : BinaryOp) (x y : Expr α)
with
  /-- The shape of the value. -/
  @[computed_field] shape : Expr α → Shape
    | .symbol _ _ s => s
    | .constant _ m => m.shape
    | .unary _ op x => op.shape x.shape
    | .binary _ op x y => op.shape x.shape y.shape

end

namespace Expr

variable {α : Type}

@[simp] theorem shape_symbol (i : Nat) (n : String) (s : Shape) :
    (symbol i n s : Expr α).shape = s := rfl

@[simp] theorem shape_constant (i : Nat) (m : Dense α) : (constant i m).shape = m.shape := rfl

@[simp] theorem shape_unary (i : Nat) (op : UnaryOp α) (x : Expr α) :
    (unary i op x).shape = op.shape x.shape := rfl

@[simp] theorem shape_binary (i : Nat) (op : BinaryOp) (x y : Expr α) :
    (binary i op x y).shape = op.shape x.shape y.shape := rfl

/-! ## Reading a node -/

/-- The number of the node. -/
def id : Expr α → Nat
  | .symbol i .. => i
  | .constant i _ => i
  | .unary i .. => i
  | .binary i .. => i

/-- Whether two handles stand for the same node. -/
def same (x y : Expr α) : Bool := x.id == y.id

def operands : Expr α → List (Expr α)
  | .symbol .. => []
  | .constant .. => []
  | .unary _ _ x => [x]
  | .binary _ _ x y => [x, y]

def opName : Expr α → String
  | .symbol .. => "symbol"
  | .constant .. => "constant"
  | .unary _ op _ => op.name
  | .binary _ op _ _ => op.name

def symbolName? : Expr α → Option String
  | .symbol _ name _ => some name
  | _ => none

def isSymbol (e : Expr α) : Bool := e.symbolName?.isSome

def constantValue? : Expr α → Option (Dense α)
  | .constant _ m => some m
  | _ => none

def isConstant (e : Expr α) : Bool := e.constantValue?.isSome

/-- Refuses a node whose operands do not fit its operation. -/
def checkOperands : Expr α → Except Error Unit
  | .symbol .. => pure ()
  | .constant .. => pure ()
  | .unary _ op x => op.check x.shape
  | .binary _ op x y => op.check x.shape y.shape

/-- A short text for the node: its symbol or operation, its number and its shape. -/
def debug (e : Expr α) : String := s!"{e.symbolName?.getD e.opName}#{e.id}[{e.shape}]"

end Expr

/-! ## Creating nodes -/

/-- A computation that creates nodes; the state is the number of the next one. -/
abbrev Build := StateM Nat

/-- A computation that creates nodes and may fail. -/
abbrev TryBuild := ExceptT Error Build

/-- Takes the next number. -/
def Build.fresh : Build Nat := modifyGet fun n => (n, n + 1)

namespace Expr

variable {α : Type}

/-- The name of a symbol that is not given one. -/
def defaultName : String := "x"

/-- A new symbol. -/
def newSymbol (name : String) (shape : Shape) : Build (Expr α) :=
  return .symbol (← Build.fresh) name shape

/-- A new constant. -/
def newConstant (value : Dense α) : Build (Expr α) := return .constant (← Build.fresh) value

/-- A new node that applies an operation to one node. -/
def newUnary (op : UnaryOp α) (x : Expr α) : Build (Expr α) := return .unary (← Build.fresh) op x

/-- A new node that applies an operation to two nodes. -/
def newBinary (op : BinaryOp) (x y : Expr α) : Build (Expr α) :=
  return .binary (← Build.fresh) op x y

/-- A new constant of zeros. -/
def zeros [Zero α] (shape : Shape) : Build (Expr α) := newConstant (.zero shape)

end Expr

end Lyapunov
