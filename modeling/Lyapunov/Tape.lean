/-
Tapes: expression graphs flattened into a list of instructions, each with a slot for its value.
Compiling puts one instruction on the tape for each node, in topological order, so that the operands
of an instruction stand in earlier slots; evaluating fills the slots from first to last.
-/
import Std.Data.HashMap
import Lyapunov.Expr.Traversal

namespace Lyapunov

/-- One step of an evaluation; operands are slots. -/
inductive Instr (α : Type) where
  /-- The argument at a position. -/
  | load (position : Nat)
  | constant (value : Dense α)
  | unary (op : UnaryOp α) (x : Nat)
  | binary (op : BinaryOp) (x y : Nat)

/-- Instructions, and the slots of the outputs. -/
structure Tape (α : Type) where
  instrs : Array (Instr α)
  outputs : List Nat

namespace Tape

variable {α : Type}

def length (t : Tape α) : Nat := t.instrs.size

/-! ## Compiling -/

/-- A tape under construction: the slot of each node by its number, and the instructions so far. -/
structure Partial (α : Type) where
  slots : Std.HashMap Nat Nat
  instrs : Array (Instr α)

namespace Partial

def empty : Partial α := ⟨∅, #[]⟩

/-- The slot that holds the value of a node. -/
def slot (t : Partial α) (e : Expr α) : Nat := t.slots.getD e.id 0

/-- The instruction for a node whose operands have slots, if its operands fit; a symbol has to be
among the inputs. -/
def instr (positions : Std.HashMap Nat Nat) (t : Partial α) (e : Expr α) :
    Except Error (Instr α) := do
  e.checkOperands
  match e with
  | .symbol i name _ =>
    match positions[i]? with
    | some position => return .load position
    | none => throw (.freeSymbol name)
  | .constant _ m => return .constant m
  | .unary _ op x => return .unary op (t.slot x)
  | .binary _ op x y => return .binary op (t.slot x) (t.slot y)

/-- Puts the instruction for a node on the tape. -/
def push (positions : Std.HashMap Nat Nat) (t : Partial α) (e : Expr α) :
    Except Error (Partial α) := do
  let instr ← t.instr positions e
  return ⟨t.slots.insert e.id t.instrs.size, t.instrs.push instr⟩

end Partial

/-- The position of each input by the number of its node; a node given twice has its last one. -/
def positionsOf (inputs : List (Expr α)) : Std.HashMap Nat Nat :=
  inputs.zipIdx.foldl (fun m (e, position) => m.insert e.id position) ∅

/-- The tape for the given outputs. The error is that of the first node in topological order whose
operands do not fit or which is a symbol that is no input. -/
def compile (inputs outputs : List (Expr α)) : Except Error (Tape α) := do
  let t ← (Expr.topologicalOrder outputs).foldlM (Partial.push (positionsOf inputs)) .empty
  return ⟨t.instrs, outputs.map t.slot⟩

/-! ## Evaluating -/

section Eval

variable [Scalar α]

/-- The matrix without entries. -/
def noValue : Dense α := .zero ⟨0, 0⟩

/-- The value of an instruction, given the arguments and the values of the earlier slots. -/
def evalInstr (args : Array (Dense α)) (slots : Array (Dense α)) :
    Instr α → Except Error (Dense α)
  | .load position => pure (args.getD position noValue)
  | .constant m => pure m
  | .unary op x => pure (op.eval (slots.getD x noValue))
  | .binary op x y => op.eval (slots.getD x noValue) (slots.getD y noValue)

/-- The values of all slots, or the error of the first instruction that fails. -/
def evalSlots (t : Tape α) (args : Array (Dense α)) : Except Error (Array (Dense α)) :=
  t.instrs.foldlM (fun slots instr => return slots.push (← evalInstr args slots instr)) #[]

/-- The values of the outputs. -/
def eval (t : Tape α) (args : List (Dense α)) : Except Error (List (Dense α)) := do
  let slots ← t.evalSlots args.toArray
  return t.outputs.map fun slot => slots.getD slot noValue

end Eval

end Tape

end Lyapunov
