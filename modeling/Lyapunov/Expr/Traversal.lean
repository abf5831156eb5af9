/-
Walks over the graph of an expression. `topologicalOrder` lists the nodes that a list of roots can
reach, each once and after its operands, in the order of a depth-first search from left to right;
`reachable` lists the nodes below one expression.

Both keep a stack of their own and the numbers of the nodes already seen, so that a node shared by
many others is entered once. The weight of the stack, which counts every path below its entries,
bounds the walk.
-/
import Std.Data.HashSet
import Lyapunov.Expr.Basic

namespace Lyapunov

namespace Expr

variable {α : Type}

/-- The number of paths that start at the node, doubled. -/
def weight : Expr α → Nat
  | .symbol .. => 2
  | .constant .. => 2
  | .unary _ _ x => x.weight + 2
  | .binary _ _ x y => x.weight + y.weight + 2

/-- The weight of several nodes together. -/
def totalWeight : List (Expr α) → Nat
  | [] => 0
  | e :: rest => e.weight + totalWeight rest

theorem totalWeight_append (xs ys : List (Expr α)) :
    totalWeight (xs ++ ys) = totalWeight xs + totalWeight ys := by
  induction xs with
  | nil => rw [List.nil_append, totalWeight, Nat.zero_add]
  | cons x xs ih => rw [List.cons_append, totalWeight, totalWeight, ih, Nat.add_assoc]

theorem totalWeight_filter_le (p : Expr α → Bool) (es : List (Expr α)) :
    totalWeight (es.filter p) ≤ totalWeight es := by
  induction es with
  | nil => exact Nat.le_refl _
  | cons e es ih =>
    rw [List.filter_cons, totalWeight]
    split
    · rw [totalWeight]
      omega
    · omega

theorem totalWeight_operands (e : Expr α) : totalWeight e.operands + 2 = e.weight := by
  cases e with
  | symbol => rfl
  | constant => rfl
  | unary => rfl
  | binary => rfl

end Expr

/-- An entry of the stack of a depth-first search: a node still to be entered, or one that is left
when everything above it has been dealt with. -/
inductive Visit (α : Type) where
  | enter (e : Expr α)
  | leave (e : Expr α)

namespace Visit

variable {α : Type}

def weight : Visit α → Nat
  | .enter e => e.weight
  | .leave _ => 1

/-- The weight of a stack. -/
def totalWeight : List (Visit α) → Nat
  | [] => 0
  | v :: rest => v.weight + totalWeight rest

theorem totalWeight_append (xs ys : List (Visit α)) :
    totalWeight (xs ++ ys) = totalWeight xs + totalWeight ys := by
  induction xs with
  | nil => rw [List.nil_append, totalWeight, Nat.zero_add]
  | cons x xs ih => rw [List.cons_append, totalWeight, totalWeight, ih, Nat.add_assoc]

theorem totalWeight_map_enter (es : List (Expr α)) :
    totalWeight (es.map .enter) = Expr.totalWeight es := by
  induction es with
  | nil => rfl
  | cons e es ih => rw [List.map_cons, totalWeight, ih]; rfl

/-- What a node puts on the stack when it is entered: its operands, unless they were entered before,
and the visit that leaves it. -/
def expand (entered : Std.HashSet Nat) (e : Expr α) : List (Visit α) :=
  (e.operands.filter fun x => !entered.contains x.id).map .enter ++ [.leave e]

theorem totalWeight_expand_lt (entered : Std.HashSet Nat) (e : Expr α) :
    totalWeight (expand entered e) < e.weight := by
  have := Expr.totalWeight_filter_le (fun x => !entered.contains x.id) e.operands
  have := e.totalWeight_operands
  rw [expand, totalWeight_append, totalWeight_map_enter, totalWeight, totalWeight, weight]
  omega

end Visit

namespace Expr

variable {α : Type}

/-- The depth-first search from a stack of visits, given the numbers of the nodes entered so far and
the nodes left so far, the last one first. -/
def search (entered : Std.HashSet Nat) (left : List (Expr α)) : List (Visit α) → List (Expr α)
  | [] => left.reverse
  | .leave e :: rest => search entered (e :: left) rest
  | .enter e :: rest =>
    if entered.contains e.id then
      search entered left rest
    else
      let extended := entered.insert e.id
      search extended left (Visit.expand extended e ++ rest)
termination_by stack => Visit.totalWeight stack
decreasing_by
  · rw [Visit.totalWeight, Visit.weight]
    omega
  · have := e.totalWeight_operands
    rw [Visit.totalWeight, Visit.weight]
    omega
  · have := Visit.totalWeight_expand_lt (entered.insert e.id) e
    rw [Visit.totalWeight_append, Visit.totalWeight, Visit.weight]
    omega

/-- The nodes that the roots can reach, each once, every node after its operands. -/
def topologicalOrder (roots : List (Expr α)) : List (Expr α) := search ∅ [] (roots.map .enter)

/-- The nodes found from a stack of nodes, given those found so far. -/
def collect (seen : Std.HashSet Nat) (found : List (Expr α)) : List (Expr α) → List (Expr α)
  | [] => found
  | e :: rest =>
    if seen.contains e.id then collect seen found rest
    else collect (seen.insert e.id) (e :: found) (e.operands ++ rest)
termination_by stack => totalWeight stack
decreasing_by
  · have := e.totalWeight_operands
    rw [totalWeight]
    omega
  · have := e.totalWeight_operands
    rw [totalWeight_append, totalWeight]
    omega

/-- The node and all nodes below it, each once. -/
def reachable (e : Expr α) : List (Expr α) := collect ∅ [] [e]

def nodeCount (e : Expr α) : Nat := e.reachable.length

/-- The symbols in the expression, in the order of their creation. -/
def symbols (e : Expr α) : List (Expr α) :=
  (e.reachable.filter isSymbol).mergeSort fun x y => x.id ≤ y.id

end Expr

end Lyapunov
