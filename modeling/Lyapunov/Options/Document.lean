/-
Options written as a TOML document: the tables are dictionaries, and arrays are not allowed.
-/
import Lyapunov.Options.Basic
import Lyapunov.Toml.Document

namespace Lyapunov

mutual

/-- The value as that of an option, if it holds no array. -/
def Toml.Value.toOption? : Toml.Value → Option OptionValue
  | .bool b => some (.bool b)
  | .int i => some (.int i)
  | .real x => some (.real x)
  | .str s => some (.str s)
  | .array _ => none
  | .table entries => do return (Options.ofList (← Toml.optionEntries? entries)).toValue

/-- The entries of a table as options. -/
def Toml.optionEntries? : List (String × Toml.Value) → Option (List (String × OptionValue))
  | [] => some []
  | (key, v) :: rest => do return (key, ← v.toOption?) :: (← Toml.optionEntries? rest)

end

/-- The options in a TOML document, if it is one and holds no array. -/
def Options.ofToml? (text : String) : Option Options := do
  return Options.ofList (← Toml.optionEntries? (← Toml.parse? text))

end Lyapunov
