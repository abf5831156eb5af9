/-
The values of a TOML document. Dates are not among them.
-/
namespace Lyapunov.Toml

/-- A value; the keys of a table differ from each other. -/
inductive Value where
  | bool (value : Bool)
  | int (value : Int64)
  | real (value : Float)
  | str (value : String)
  | array (elements : List Value)
  | table (entries : List (String × Value))

/-- The entries of a table under construction, or of the document. -/
abbrev Table := List (String × Value)

namespace Value

/-- The value as a count, if it is an integer that is not negative. -/
def count? : Value → Option Nat
  | .int i => if i < 0 then none else some i.toInt.toNat
  | _ => none

end Value

/-- The value under a key. -/
def Table.get? (t : Table) (key : String) : Option Value := (t.find? (·.1 == key)).map (·.2)

end Lyapunov.Toml
