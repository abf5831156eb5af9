/-
Equations written as TOML documents. A shape is a table with the counts `rows` and `cols`, or an
array that starts with them; keys that mean nothing are passed over.
-/
import Lyapunov.Equation.Dle
import Lyapunov.Equation.LowRank
import Lyapunov.Toml.Document

namespace Lyapunov

namespace Toml

/-- The shape that a value describes. -/
def Value.shape? : Value → Option Shape
  | .table t => do return ⟨← (← Table.get? t "rows").count?, ← (← Table.get? t "cols").count?⟩
  | .array (rows :: cols :: _) => do return ⟨← rows.count?, ← cols.count?⟩
  | _ => none

/-- The counts that an array lists. -/
def Value.counts? : Value → Option (List Nat)
  | .array elements => elements.mapM Value.count?
  | _ => none

/-- What a key holds, if it is there; it has to be of the right form. -/
def Table.optional? {β : Type} (t : Table) (key : String) (read : Value → Option β) :
    Option (Option β) :=
  match Table.get? t key with
  | none => some none
  | some v => (read v).map some

end Toml

/-- The equation in a document with the shapes `a` and `v`. -/
def Dle.ofToml? (text : String) : Option Dle := do
  let t ← Toml.parse? text
  return ⟨← (← t.get? "a").shape?, ← (← t.get? "v").shape?⟩

/-- The equation in a document with the shapes `a` and `v`, and perhaps the shapes `c` and `h` and
the list `h_blocks`. -/
def LowRankDle.ofToml? (text : String) : Option LowRankDle := do
  let t ← Toml.parse? text
  let c ← t.optional? "c" Toml.Value.shape?
  let h ← t.optional? "h" Toml.Value.shape?
  let hBlocks ← t.optional? "h_blocks" Toml.Value.counts?
  return ⟨← (← t.get? "a").shape?, ← (← t.get? "v").shape?, c, h, hBlocks.getD []⟩

end Lyapunov
