/-
Functions of matrices: a name, named inputs that are distinct symbols, named outputs, and the tape
that computes them. A function exists only for inputs and outputs that pass the checks of `compile`.
It is evaluated on arguments by position or called with arguments by name; either way the arguments
have to have the shapes of the inputs.
-/
import Lyapunov.Argument
import Lyapunov.Tape

namespace Lyapunov

namespace Func

variable {α : Type}

/-- Refuses the first input that is not a symbol, or whose name or symbol was given before. -/
def checkInputs (function : String) (names : List String) (ids : List Nat) :
    List (String × Expr α) → Except Error Unit
  | [] => pure ()
  | (name, e) :: rest =>
    if !e.isSymbol then throw (.invalidFunction function (.notSymbol name))
    else if names.contains name then throw (.invalidFunction function (.repeatedInput name))
    else if ids.contains e.id then throw (.invalidFunction function .repeatedSymbol)
    else checkInputs function (name :: names) (e.id :: ids) rest

/-- Refuses the first output whose name was given before. -/
def checkOutputs (function : String) (names : List String) : List (String × Expr α) → Except Error Unit
  | [] => pure ()
  | (name, _) :: rest =>
    if names.contains name then throw (.invalidFunction function (.repeatedOutput name))
    else checkOutputs function (name :: names) rest

/-- The tape of the function with the given inputs and outputs, if there is such a function. -/
def compile (function : String) (inputs outputs : List (String × Expr α)) :
    Except Error (Tape α) := do
  checkInputs function [] [] inputs
  checkOutputs function [] outputs
  Tape.compile (inputs.map (·.2)) (outputs.map (·.2))

end Func

/-- A compiled function with named inputs and outputs. -/
structure Func (α : Type) where
  name : String
  inputs : List (String × Expr α)
  outputs : List (String × Expr α)
  tape : Tape α
  compiled : Func.compile name inputs outputs = .ok tape

namespace Func

variable {α : Type}

/-- The function of the given name, inputs and outputs. -/
def make (name : String) (inputs outputs : List (String × Expr α)) : Except Error (Func α) :=
  match h : compile name inputs outputs with
  | .ok tape => .ok ⟨name, inputs, outputs, tape, h⟩
  | .error e => .error e

/-! ## Looking up inputs and outputs -/

def inputNames (f : Func α) : List String := f.inputs.map (·.1)

def outputNames (f : Func α) : List String := f.outputs.map (·.1)

def inputShapes (f : Func α) : List Shape := f.inputs.map (·.2.shape)

def outputShapes (f : Func α) : List Shape := f.outputs.map (·.2.shape)

def inputShape? (f : Func α) (i : Nat) : Option Shape := f.inputShapes[i]?

def outputShape? (f : Func α) (i : Nat) : Option Shape := f.outputShapes[i]?

def inputIndex? (f : Func α) (name : String) : Option Nat := f.inputNames.findIdx? (· == name)

def outputIndex? (f : Func α) (name : String) : Option Nat := f.outputNames.findIdx? (· == name)

/-! ## Evaluating -/

/-- Refuses the first argument that does not have the shape of its input. -/
def checkShapes (inputs : List (String × Expr α)) (args : List (Argument α)) : Except Error Unit :=
  (inputs.zip args).forM fun ((name, e), arg) =>
    arg.shape.require (arg.shape == e.shape) (.input e.shape name)

/-- Refuses arguments that are not as many as the inputs, or not of their shapes. -/
def checkArguments (f : Func α) (args : List (Argument α)) : Except Error Unit := do
  if args.length ≠ f.inputs.length then
    throw (.argumentCount f.name f.inputs.length args.length)
  checkShapes f.inputs args

variable [Scalar α]

/-- The values of the outputs for arguments in the order of the inputs. -/
def eval (f : Func α) (args : List (Argument α)) : Except Error (List (Dense α)) := do
  f.checkArguments args
  f.tape.eval (args.map (·.toDense))

/-- Puts an argument into the place of the input of its name, instead of one that is there already. -/
def place (f : Func α) (places : List (Option (Argument α))) (arg : String × Argument α) :
    Except Error (List (Option (Argument α))) :=
  match f.inputIndex? arg.1 with
  | some i => pure (places.set i (some arg.2))
  | none => throw (.unknownInput arg.1)

/-- Puts named arguments into the places of the inputs. Refuses a name that is no input, then an input
without an argument. -/
def arrange (f : Func α) (args : List (String × Argument α)) : Except Error (List (Argument α)) := do
  let places ← args.foldlM f.place (f.inputNames.map fun _ => none)
  (places.zip f.inputNames).mapM fun (arg, name) =>
    match arg with
    | some arg => pure arg
    | none => throw (.missingInput name)

/-- The values of the outputs by name, for arguments by name; of arguments given under one name the
last one counts. -/
def call (f : Func α) (args : List (String × Argument α)) :
    Except Error (List (String × Dense α)) := do
  return f.outputNames.zip (← f.eval (← f.arrange args))

end Func

end Lyapunov
