/-
Everything that can be refused, by cause. `Error.message` is the one place where a cause is put
into words.
-/
import Lyapunov.Shape
import Lyapunov.Options.Basic

namespace Lyapunov

/-- What the shape of a matrix had to satisfy. -/
inductive ShapeRequirement where
  /-- A second summand has the shape of the first. -/
  | summand (first : Shape)
  /-- A second factor has as many rows as the first has columns. -/
  | factor (first : Shape)
  /-- A Kronecker factor divides the matrix that is contracted with it. -/
  | kroneckerFactor (contracted : Shape)
  /-- A matrix to reshape has as many entries as the new shape. -/
  | reshaped (size : Nat)
  /-- A system matrix is square, with a row for each row of the right-hand side. -/
  | system (rows : Nat)
  | scalarCondition
  /-- An argument has the shape of its input. -/
  | input (shape : Shape) (name : String)
  | squareA
  /-- `V` has the shape of `A`. -/
  | sameAsA (a : Shape)
  /-- `C` has a row for each row of `A`. -/
  | rowsOfC (n : Nat)
  /-- `V` is square with a row for each column of what stands around it. -/
  | squareV (m : Nat)
  /-- `H` has a row for each row of `A`. -/
  | rowsOfH (n : Nat)
  /-- The blocks of `H` are not empty and cover its columns. -/
  | blocksOfH (widths : List Nat)
  | output (shape : Shape) (name : String)
deriving DecidableEq

/-- What was wrong with the value given for an option. -/
inductive OptionFault where
  /-- The name is not among those declared. -/
  | unknown (known : List String)
  | wrongKind (expected got : OptionKind)
  | notInteger
  | negative (value : Int64)
deriving DecidableEq

/-- Why the inputs and outputs given do not make a function. -/
inductive FunctionFault where
  | notSymbol (input : String)
  | repeatedInput (input : String)
  | repeatedSymbol
  | repeatedOutput (output : String)
deriving DecidableEq

inductive Error where
  /-- A solver was asked to assume a positive definite solution. -/
  | positiveDefinite
  | invalidOption (name : String) (fault : OptionFault)
  | unknownSolver (problem plugin : String)
  | shapeMismatch (requirement : ShapeRequirement) (got : Shape)
  | argumentCount (function : String) (expected got : Nat)
  | invalidFunction (function : String) (fault : FunctionFault)
  | freeSymbol (name : String)
  | missingInput (name : String)
  | unknownInput (name : String)
  | assertionFailed (message : String)
  | singularMatrix (n : Nat)
  /-- A system without equations was asked for a solution with columns. -/
  | emptySystem
deriving DecidableEq

/-- The requirement in words. -/
def ShapeRequirement.message : ShapeRequirement → String
  | .summand first => s!"{first} in addition"
  | .factor first => s!"{first.cols} rows in matrix product with {first}"
  | .kroneckerFactor contracted => s!"Kronecker factor dividing {contracted}"
  | .reshaped size => s!"{size} elements to reshape"
  | .system rows => s!"square system matrix with {rows} rows"
  | .scalarCondition => "scalar assertion condition"
  | .input shape name => s!"{shape} for input '{name}'"
  | .squareA => "square A"
  | .sameAsA a => s!"V of shape {a}"
  | .rowsOfC n => s!"C with {n} rows"
  | .squareV m => s!"{m}x{m}"
  | .rowsOfH n => s!"H with {n} rows"
  | .blocksOfH widths =>
    "H blocks [" ++ ", ".intercalate (widths.map toString) ++ "] covering its columns"
  | .output shape name => s!"{shape} for output '{name}'"

/-- The fault in words. -/
def OptionFault.message : OptionFault → String
  | .unknown known => "unknown option; known: " ++ ", ".intercalate known
  | .wrongKind expected got => s!"expected {expected}, got {got}"
  | .notInteger => "expected integer"
  | .negative value => s!"must be >= 0, got {value.toInt}"

/-- The fault in words, for the function of the given name. -/
def FunctionFault.message (function : String) : FunctionFault → String
  | .notSymbol input => s!"input '{input}' of '{function}' is not a symbol"
  | .repeatedInput input => s!"duplicate input name '{input}' in '{function}'"
  | .repeatedSymbol => s!"symbol bound to more than one input of '{function}'"
  | .repeatedOutput output => s!"duplicate output name '{output}' in '{function}'"

/-- The error in words. -/
def Error.message : Error → String
  | .positiveDefinite =>
    "Configuration error: pos_def option set to true: solver only handles the indefinite case"
  | .invalidOption name fault => s!"Invalid option '{name}': {fault.message}"
  | .unknownSolver problem plugin => s!"Unknown solver: {problem} plugin '{plugin}'"
  | .shapeMismatch requirement got =>
    s!"Shape mismatch: expected {requirement.message}, got {got}"
  | .argumentCount function expected got =>
    s!"Shape mismatch: expected {expected} inputs for '{function}', got {got} inputs"
  | .invalidFunction function fault => s!"Invalid function: {fault.message function}"
  | .freeSymbol name => s!"Free symbol '{name}' is not an input of the function"
  | .missingInput name => s!"Missing input: {name}"
  | .unknownInput name => s!"Unknown input: {name}"
  | .assertionFailed message => s!"Assertion error: {message}"
  | .singularMatrix n => s!"Singular matrix: {n}x{n} linear system"
  | .emptySystem => "Empty system: no equations for the columns of the right-hand side"

end Lyapunov
