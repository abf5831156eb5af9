/-
Schemas: the options that a solver declares, with their kinds and defaults. Resolving a dictionary
against schemas checks every entry against the first declaration of its name and fills in the
defaults of the names that are missing.
-/
import Lyapunov.Error

namespace Lyapunov

/-- Whether a value may be given for an option of this kind; an integer may stand for a real. -/
def OptionKind.accepts (kind : OptionKind) (value : OptionValue) : Bool :=
  value.kind == kind || (kind == .real && value.kind == .int)

/-- The declaration of an option. -/
structure OptionSpec where
  name : String
  kind : OptionKind
  default : OptionValue
  description : String

/-- The options that every solver understands. -/
def OptionSpec.generic : List OptionSpec :=
  [{ name := "pos_def", kind := .bool, default := .bool false
     description := "Assume P positive definite" }]

namespace Options

/-- Checks one entry against the first declaration of its name. -/
def checkEntry (specs : List OptionSpec) (entry : String × OptionValue) : Except Error Unit :=
  match specs.find? (·.name == entry.1) with
  | none => throw (.invalidOption entry.1 (.unknown (specs.map (·.name))))
  | some spec =>
    if spec.kind.accepts entry.2 then pure ()
    else throw (.invalidOption entry.1 (.wrongKind spec.kind entry.2.kind))

/-- Gives an option its declared default unless it has a value. -/
def setDefault (o : Options) (spec : OptionSpec) : Options :=
  if o.contains spec.name then o else o.set spec.name spec.default

/-- The dictionary with the defaults of the schemas, if all its entries are declared there. -/
def resolve (o : Options) (schemas : List (List OptionSpec)) : Except Error Options := do
  o.entries.forM (checkEntry schemas.flatten)
  return schemas.flatten.foldl setDefault o

/-- The truth value of an option, or the default. -/
def boolOr (o : Options) (key : String) (default : Bool) : Bool :=
  ((o.get? key).bind (·.asBool?)).getD default

/-- The value of an option that counts something, or the default. -/
def count (o : Options) (key : String) (default : Nat) : Except Error Nat :=
  match o.get? key with
  | none => pure default
  | some value =>
    match value.asInt? with
    | none => throw (.invalidOption key .notInteger)
    | some i => if i < 0 then throw (.invalidOption key (.negative i)) else pure i.toInt.toNat

end Options

end Lyapunov
