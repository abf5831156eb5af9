/-
Options: dictionaries from names to values, where a value is a truth value, a 64-bit integer, a
real number, a text or another dictionary. A dictionary lists its names in increasing order, each
once, so that two ways of filling it give the same dictionary.
-/
namespace Lyapunov

/-- The type of an option's value. -/
inductive OptionKind where
  | bool
  | int
  | real
  | str
  | dict
deriving DecidableEq

instance : ToString OptionKind where
  toString
    | .bool => "boolean"
    | .int => "integer"
    | .real => "real"
    | .str => "string"
    | .dict => "dictionary"

/-- The value of an option. The entries of a dictionary stand in the order of their names when
they come from `Options.toValue`. -/
inductive OptionValue where
  | bool (value : Bool)
  | int (value : Int64)
  | real (value : Float)
  | str (value : String)
  | dict (entries : List (String × OptionValue))

/-- Entries in increasing order of their names. -/
def KeysIncrease (entries : List (String × OptionValue)) : Prop :=
  entries.Pairwise fun x y => x.1 < y.1

/-- A dictionary of options. -/
structure Options where
  entries : List (String × OptionValue)
  increasing : KeysIncrease entries

namespace Options

/-! ## Ordered lists of entries -/

/-- Puts a value under a name into an ordered list, in place of the value it had. -/
def insertEntry (key : String) (value : OptionValue) :
    List (String × OptionValue) → List (String × OptionValue)
  | [] => [(key, value)]
  | entry :: rest =>
    if key < entry.1 then (key, value) :: entry :: rest
    else if key = entry.1 then (key, value) :: rest
    else entry :: insertEntry key value rest

theorem key_mem_insertEntry {key : String} {value : OptionValue} {x : String × OptionValue}
    {entries : List (String × OptionValue)} (h : x ∈ insertEntry key value entries) :
    x.1 = key ∨ x ∈ entries := by
  induction entries with
  | nil => simp_all [insertEntry]
  | cons entry rest ih =>
    unfold insertEntry at h
    split at h
    · rcases List.mem_cons.1 h with rfl | h
      · exact .inl rfl
      · exact .inr h
    · split at h
      · rcases List.mem_cons.1 h with rfl | h
        · exact .inl rfl
        · exact .inr (List.mem_cons_of_mem _ h)
      · rcases List.mem_cons.1 h with rfl | h
        · exact .inr List.mem_cons_self
        · exact (ih h).imp id (List.mem_cons_of_mem _)

theorem keysIncrease_insertEntry (key : String) (value : OptionValue)
    {entries : List (String × OptionValue)} (h : KeysIncrease entries) :
    KeysIncrease (insertEntry key value entries) := by
  unfold KeysIncrease at *
  induction entries with
  | nil => simp [insertEntry]
  | cons entry rest ih =>
    rw [List.pairwise_cons] at h
    unfold insertEntry
    split
    · rename_i hlt
      rw [List.pairwise_cons, List.pairwise_cons]
      exact ⟨fun x hx => (List.mem_cons.1 hx).elim (· ▸ hlt) fun hx => String.lt_trans hlt (h.1 x hx), h⟩
    · rename_i hlt
      split
      · rename_i heq
        rw [List.pairwise_cons]
        exact ⟨fun x hx => heq ▸ h.1 x hx, h.2⟩
      · rename_i hne
        rw [List.pairwise_cons]
        refine ⟨fun x hx => ?_, ih h.2⟩
        rcases key_mem_insertEntry hx with hx | hx
        · rw [hx]
          exact String.not_le.1 fun hle => hne (String.le_antisymm hle (String.not_lt.1 hlt))
        · exact h.1 x hx

theorem find?_insertEntry (key other : String) (value : OptionValue)
    (entries : List (String × OptionValue)) :
    (insertEntry key value entries).find? (·.1 == other) =
      if key = other then some (key, value) else entries.find? (·.1 == other) := by
  induction entries with
  | nil => by_cases h : key = other <;> simp [insertEntry, h]
  | cons entry rest ih =>
    unfold insertEntry
    split
    · by_cases h : key = other <;> simp [h]
    · split
      · rename_i heq
        by_cases h : key = other <;> simp [h, ← heq]
      · rename_i hne
        rw [List.find?_cons, ih, List.find?_cons]
        by_cases h : key = other
        · subst h
          rw [if_pos rfl, if_pos rfl, beq_false_of_ne (Ne.symm hne)]
        · rw [if_neg h, if_neg h]

/-! ## Dictionaries -/

def empty : Options := ⟨[], .nil⟩

/-- Puts a value under a name, in place of the value it had. -/
def set (o : Options) (key : String) (value : OptionValue) : Options :=
  ⟨insertEntry key value o.entries, keysIncrease_insertEntry key value o.increasing⟩

/-- The dictionary of the given entries; the last value given for a name wins. -/
def ofList (entries : List (String × OptionValue)) : Options :=
  entries.foldl (fun o entry => o.set entry.1 entry.2) empty

def get? (o : Options) (key : String) : Option OptionValue :=
  (o.entries.find? (·.1 == key)).map (·.2)

/-- A dictionary gives the value last put under a name. -/
theorem get?_set (o : Options) (key other : String) (value : OptionValue) :
    (o.set key value).get? other = if key = other then some value else o.get? other := by
  rw [get?, set, find?_insertEntry]
  split <;> rfl

def contains (o : Options) (key : String) : Bool := (o.get? key).isSome

def size (o : Options) : Nat := o.entries.length

/-- A dictionary as the value of an option. -/
def toValue (o : Options) : OptionValue := .dict o.entries

end Options

namespace OptionValue

def kind : OptionValue → OptionKind
  | .bool _ => .bool
  | .int _ => .int
  | .real _ => .real
  | .str _ => .str
  | .dict _ => .dict

/-- The integer with the same 64 bits, so that a number from 2^63 on becomes negative. -/
def ofWord (n : UInt64) : OptionValue := .int n.toInt64

def asBool? : OptionValue → Option Bool
  | .bool b => some b
  | _ => none

def asInt? : OptionValue → Option Int64
  | .int i => some i
  | _ => none

/-- A real number, or an integer as the nearest one. -/
def asReal? : OptionValue → Option Float
  | .real x => some x
  | .int i => some i.toFloat
  | _ => none

def asStr? : OptionValue → Option String
  | .str s => some s
  | _ => none

def asDict? : OptionValue → Option Options
  | .dict entries => some (.ofList entries)
  | _ => none

mutual

/-- Equality of values of one kind; reals are compared as numbers, so NaN differs from itself and
the two zeros are equal. -/
def eq : OptionValue → OptionValue → Bool
  | .bool a, .bool b => a == b
  | .int a, .int b => a == b
  | .real a, .real b => a == b
  | .str a, .str b => a == b
  | .dict a, .dict b => eqEntries a b
  | _, _ => false

/-- Equality of lists of entries, name by name and value by value. -/
def eqEntries : List (String × OptionValue) → List (String × OptionValue) → Bool
  | [], [] => true
  | (k, x) :: xs, (l, y) :: ys => k == l && eq x y && eqEntries xs ys
  | _, _ => false

end

instance : BEq OptionValue := ⟨eq⟩

end OptionValue

instance : BEq Options := ⟨fun o p => OptionValue.eqEntries o.entries p.entries⟩

end Lyapunov
