/-
The numbers below an expression. A node that is used in many places has one number, so the numbers count the
nodes of a graph; and an operator adds the numbers of the nodes that it creates to those of its operands.
-/
import Mathlib.Order.Interval.Finset.Nat
import Lyapunov.Proofs.Graph.Collect
import Lyapunov.Proofs.Graph.Growth

namespace Lyapunov

variable {α : Type}

namespace Expr

/-- The numbers of the node and of the nodes below it. -/
def numbers : Expr α → Finset Nat
  | .symbol i .. => {i}
  | .constant i _ => {i}
  | .unary i _ x => insert i x.numbers
  | .binary i _ x y => insert i (x.numbers ∪ y.numbers)

theorem numbers_of_isSymbol {e : Expr α} (h : e.isSymbol = true) : e.numbers = {e.id} := by
  cases e with
  | symbol => rfl
  | constant | unary | binary => cases h

theorem mem_numbers {e : Expr α} {i : Nat} : i ∈ e.numbers ↔ ∃ x, Below x e ∧ x.id = i := by
  induction e with
  | symbol j n s => simp [numbers, below_iff (e := symbol j n s), operands, id, eq_comm]
  | constant j m => simp [numbers, below_iff (e := constant j m), operands, id, eq_comm]
  | unary j op x ih =>
    simp [numbers, below_iff (e := unary j op x), operands, id, ih, or_and_right, exists_or, eq_comm]
  | binary j op x y ihx ihy =>
    simp [numbers, below_iff (e := binary j op x y), operands, id, ihx, ihy, or_and_right, exists_or, eq_comm]

/-- Each node is counted once, however often it is used. -/
theorem nodeCount_eq_card {e : Expr α} (h : IsDag [e]) : e.nodeCount = e.numbers.card := by
  have hset : (e.reachable.map Expr.id).toFinset = e.numbers := by
    ext i
    simp only [List.mem_toFinset, List.mem_map, mem_reachable_iff h, mem_numbers]
  rw [← hset, List.toFinset_card_of_nodup (nodup_reachable h), List.length_map]
  rfl

/-! ## Operators -/

section

variable (x y : Expr α) (s : Nat)

theorem numbers_matmul : ((x.matmul y).run s).1.numbers = insert s (x.numbers ∪ y.numbers) := rfl

theorem numbers_congruence :
    ((x.congruence y).run s).1.numbers = x.numbers ∪ y.numbers ∪ Finset.Ico s (s + 3) := by
  have h : ((x.congruence y).run s).1.numbers =
      insert (s + 2) (x.numbers ∪ insert (s + 1) (y.numbers ∪ insert s x.numbers)) := rfl
  rw [h]
  ext i
  simp only [Finset.mem_insert, Finset.mem_union, Finset.mem_Ico]
  grind

theorem numbers_symmetrize [One α] [Add α] [Div α] :
    (x.symmetrize.run s).1.numbers = x.numbers ∪ Finset.Ico s (s + 3) := by
  have h : (x.symmetrize.run s).1.numbers = insert (s + 2) (insert (s + 1) (x.numbers ∪ insert s x.numbers)) :=
    rfl
  rw [h]
  ext i
  simp only [Finset.mem_insert, Finset.mem_union, Finset.mem_Ico]
  grind

end

end Expr

/-! ## Graphs of any nodes -/

namespace Build

/-- From the graph `S` the computation creates a node of a larger graph, with operands of any shape. -/
abbrev GrowsNode (S : Set (Expr α)) (m : Build (Expr α)) : Prop :=
  Grows (fun _ => True) S m fun S' e => e ∈ S'

variable {S : Set (Expr α)} {x y : Expr α}

theorem growsNode_unary (hx : x ∈ S) (op : UnaryOp α) : GrowsNode S (Expr.newUnary op x) :=
  (grows_newUnary hx fun _ => trivial).imp fun _ _ _ h => h.1

theorem growsNode_binary (hx : x ∈ S) (hy : y ∈ S) (op : BinaryOp) : GrowsNode S (Expr.newBinary op x y) :=
  (grows_newBinary hx hy fun _ => trivial).imp fun _ _ _ h => h.1

theorem growsNode_congruence (hx : x ∈ S) (hy : y ∈ S) : GrowsNode S (x.congruence y) := by
  refine grows_bind (growsNode_unary hx .transpose) fun S₁ t h₁ ht => ?_
  refine grows_bind (growsNode_binary (h₁ hy) ht .matmul) fun S₂ z h₂ hz => ?_
  exact growsNode_binary (h₂ (h₁ hx)) hz .matmul

theorem growsNode_symmetrize [One α] [Add α] [Div α] (hx : x ∈ S) : GrowsNode S x.symmetrize := by
  refine grows_bind (growsNode_unary hx .transpose) fun S₁ t h₁ ht => ?_
  refine grows_bind (growsNode_binary (h₁ hx) ht .add) fun S₂ z h₂ hz => ?_
  exact growsNode_unary hz _

end Build

end Lyapunov
