/-
Putting the pairs of a TOML document into tables. A pair names its place by a path; a header names
the table that the pairs below it belong to. A table may be opened once by a header, filled by
dotted keys only from where it was created, and never taken for something else.
-/
import Lyapunov.Toml.Value

namespace Lyapunov.Toml

/-- How a table came to be. -/
inductive TableOrigin where
  /-- By a header of its own, or as the document. -/
  | header
  /-- On the way of a header to a table inside it. -/
  | passed
  /-- On the way of a dotted key. -/
  | dotted
deriving DecidableEq

/-- What stands under a key while the document is put together. -/
inductive Node where
  | value (value : Value)
  | table (origin : TableOrigin) (entries : List (String × Node))
  /-- Tables given one by one under headers with double brackets. -/
  | tables (elements : List (List (String × Node)))

/-- A pair with the way to its table and its key there. -/
structure Pair where
  path : List String
  key : String
  value : Value

/-- What the pairs of a part of the document belong to. -/
inductive Header where
  | document
  | table (path : List String) (key : String)
  | element (path : List String) (key : String)

namespace Node

/-- The entries of a table. -/
abbrev Entries := List (String × Node)

def Entries.get? (t : Entries) (key : String) : Option Node := (t.find? (·.1 == key)).map (·.2)

/-- Puts a node under a key, in place of what was there. -/
def Entries.set (t : Entries) (key : String) (node : Node) : Entries :=
  match t with
  | [] => [(key, node)]
  | entry :: rest =>
    if entry.1 == key then (key, node) :: rest else entry :: Entries.set rest key node

/-- Changes the table at the end of a path, creating the tables on the way that are missing. The way
leads through tables and into the last of several tables under one key; a dotted key cannot pass a
table that has a header. -/
def modifyAt (onWay : TableOrigin) (f : TableOrigin → Entries → Option Entries) :
    List String → TableOrigin → Entries → Option Entries
  | [], origin, t => f origin t
  | key :: path, _, t =>
    match Entries.get? t key with
    | none => do return Entries.set t key (.table onWay (← modifyAt onWay f path onWay []))
    | some (.value _) => none
    | some (.table origin inner) =>
      if onWay = .dotted ∧ origin = .header then none
      else do return Entries.set t key (.table origin (← modifyAt onWay f path origin inner))
    | some (.tables elements) =>
      match elements.getLast? with
      | none => none
      | some last => do
        let changed ← modifyAt onWay f path .header last
        return Entries.set t key (.tables (elements.dropLast ++ [changed]))

/-- Adds a pair to a table. Its key must be new, and a dotted key must end in a table that dotted
keys created. -/
def addPair (t : Entries) (pair : Pair) : Option Entries :=
  modifyAt .dotted
    (fun origin inner =>
      if (origin == .dotted) == pair.path.isEmpty then none
      else if (Entries.get? inner pair.key).isSome then none
      else some (Entries.set inner pair.key (.value pair.value)))
    pair.path .header t

/-- Adds the pairs below a header to the document. -/
def addSection (document : Entries) (part : Header × List Pair) : Option Entries :=
  match part.1 with
  | .document => part.2.foldlM addPair document
  | .table path key =>
    modifyAt .passed
      (fun _ parent => do
        let start ← match Entries.get? parent key with
          | none => some []
          | some (.table .passed inner) => some inner
          | some _ => none
        return Entries.set parent key (.table .header (← part.2.foldlM addPair start)))
      path .header document
  | .element path key =>
    modifyAt .passed
      (fun _ parent => do
        let elements ← match Entries.get? parent key with
          | none => some []
          | some (.tables elements) => some elements
          | some _ => none
        return Entries.set parent key (.tables (elements ++ [← part.2.foldlM addPair []])))
      path .header document

mutual

/-- The finished value. -/
def toValue : Node → Value
  | .value v => v
  | .table _ entries => .table (entriesToTable entries)
  | .tables elements => .array (elementsToValues elements)

/-- The finished entries of a table. -/
def entriesToTable : List (String × Node) → Table
  | [] => []
  | (key, node) :: rest => (key, node.toValue) :: entriesToTable rest

/-- The finished tables of an array. -/
def elementsToValues : List (List (String × Node)) → List Value
  | [] => []
  | entries :: rest => .table (entriesToTable entries) :: elementsToValues rest

end

end Node

/-- The table of the given pairs, as between braces. -/
def tableOfPairs (pairs : List Pair) : Option Table :=
  (pairs.foldlM Node.addPair []).map Node.entriesToTable

/-- The table of a document in parts. -/
def tableOfSections (parts : List (Header × List Pair)) : Option Table :=
  (parts.foldlM Node.addSection []).map Node.entriesToTable

end Lyapunov.Toml
