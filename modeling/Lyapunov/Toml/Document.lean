/-
Reading TOML 1.0 documents: values, pairs of keys and values, headers, and from them the table that
the document describes. Dates are refused.
-/
import Lyapunov.Toml.Assembly
import Lyapunov.Toml.Text

namespace Lyapunov.Toml

open Scan

/-! ## Values -/

/-- Elements of an array up to its closing bracket; a comma may follow the last one. -/
def arrayRest (element : Scan Value) : Scan (List Value) := do
  spacing
  let elements ← many do
    let v ← element
    spacing
    if (← peek?) == some ']' then pure () else do char ','; spacing
    return v
  char ']'
  return elements

/-- A key and its value. -/
def pair (value : Scan Value) : Scan Pair := do
  let (path, last) ← key
  char '='
  blanks
  return ⟨path, last, ← value⟩

/-- Pairs up to the closing brace of a table within a line. -/
def inlineTableRest (value : Scan Value) : Scan Table := do
  let next : Scan Pair := do let p ← pair value; blanks; return p
  blanks
  if (← peek?) == some '\x7d' then
    char '\x7d'
    return []
  let first ← next
  let rest ← many do char ','; next
  char '\x7d'
  match tableOfPairs (first :: rest) with
  | some t => return t
  | none => failure

/-- A value in which arrays and tables nest at most `depth` deep. -/
def value : (depth : Nat) → Scan Value
  | 0 => scalar
  | depth + 1 => do
    match ← peek? with
    | some '[' => char '['; return .array (← arrayRest (value depth))
    | some '\x7b' => char '\x7b'; return .table (← inlineTableRest (value depth))
    | _ => scalar
where
  /-- A value without parts. -/
  scalar : Scan Value := do
    match ← peek? with
    | some '"' | some '\'' => return .str (← string)
    | some 't' => word "true"; return .bool true
    | some 'f' => word "false"; return .bool false
    | _ => number

/-! ## Documents -/

/-- A line that says something. -/
inductive Line where
  | header (header : Header)
  | pair (pair : Pair)

/-- A header in single or double brackets. -/
def header : Scan Header := do
  char '['
  if (← peek?) == some '[' then
    char '['
    let (path, last) ← key
    word "]]"
    return .element path last
  else
    let (path, last) ← key
    char ']'
    return .table path last

/-- One line, empty or not. -/
def line : Scan (Option Line) := do
  blanks
  match ← peek? with
  | none | some '#' | some '\n' | some '\r' => lineEnd; return none
  | some '[' => let h ← header; lineEnd; return some (.header h)
  | some _ => let p ← pair (value (depthLimit - 1)); lineEnd; return some (.pair p)

/-- The pairs of a document below their headers, in order. -/
def sections (current : Header) (pairs : List Pair) : List Line → List (Header × List Pair)
  | [] => [(current, pairs.reverse)]
  | .pair p :: rest => sections current (p :: pairs) rest
  | .header h :: rest => (current, pairs.reverse) :: sections h [] rest

/-- The table that a document describes, if the text is a TOML document. A byte order mark in front
is skipped. -/
def parse? (text : String) : Option Table := do
  let document : Scan (List Line) := do
    if (← peek?) == some '\ufeff' then char '\ufeff'
    let lines ← many do if (← get).isEmpty then failure else line
    atEnd
    return lines.filterMap fun l => l
  let (lines, _) ← document text.toList
  tableOfSections (sections .document [] lines)

end Lyapunov.Toml
