/-
The graph below a list of expressions. `Below` is the order of nodes by their operands, `Reachable`
the nodes below a list of roots. A set of nodes is a graph when it holds the operands of its nodes
and each number stands for one node in it; a node is then never found below its own operands, so
that a graph has no cycles, however much its nodes are shared.
-/
import Mathlib.Data.List.Nodup
import Mathlib.Data.Set.Basic
import Lyapunov.Expr.Traversal

namespace Lyapunov

variable {α : Type}

namespace Expr

/-! ## Below -/

/-- `Below x e`: the node `x` is `e` or is found below it. -/
inductive Below : Expr α → Expr α → Prop where
  | refl (e : Expr α) : Below e e
  | operand {x y e : Expr α} : y ∈ e.operands → Below x y → Below x e

theorem Below.trans {x y z : Expr α} (h : Below x y) (k : Below y z) : Below x z := by
  induction k with
  | refl => exact h
  | operand hy _ ih => exact .operand hy ih

theorem below_of_operand {x e : Expr α} (h : x ∈ e.operands) : Below x e := .operand h (.refl x)

theorem Below.binary_left {x e : Expr α} (h : Below x e) (i : Nat) (op : BinaryOp) (y : Expr α) :
    Below x (.binary i op e y) := .operand (by simp [operands]) h

theorem Below.binary_right {x e : Expr α} (h : Below x e) (i : Nat) (op : BinaryOp) (y : Expr α) :
    Below x (.binary i op y e) := .operand (by simp [operands]) h

theorem weight_operand {x e : Expr α} (h : x ∈ e.operands) : x.weight < e.weight := by
  cases e with
  | symbol => cases h
  | constant => cases h
  | unary i op y =>
    simp only [operands, List.mem_singleton] at h
    subst h; simp [weight]
  | binary i op y z =>
    simp only [operands, List.mem_cons, List.not_mem_nil, or_false] at h
    rcases h with rfl | rfl <;> simp only [weight] <;> omega

theorem Below.weight_le {x e : Expr α} (h : Below x e) : x.weight ≤ e.weight := by
  induction h with
  | refl => exact le_rfl
  | operand hy _ ih => exact ih.trans (weight_operand hy).le

/-- No node is found below one of its operands. -/
theorem not_below_operand {x e : Expr α} (h : x ∈ e.operands) : ¬ Below e x := by
  intro hb
  have := hb.weight_le
  have := weight_operand h
  omega

theorem below_iff {x e : Expr α} : Below x e ↔ x = e ∨ ∃ y ∈ e.operands, Below x y := by
  constructor
  · rintro (_ | ⟨hy, h⟩)
    · exact .inl rfl
    · exact .inr ⟨_, hy, h⟩
  · rintro (rfl | ⟨y, hy, h⟩)
    · exact .refl _
    · exact .operand hy h

/-! ## What holds of every node below -/

/-- Every node below has the property. -/
def All (P : Expr α → Prop) (e : Expr α) : Prop := ∀ x, Below x e → P x

theorem all_iff {P : Expr α → Prop} {e : Expr α} : e.All P ↔ P e ∧ ∀ x ∈ e.operands, x.All P := by
  constructor
  · intro h
    exact ⟨h e (.refl e), fun x hx y hy => h y (.operand hx hy)⟩
  · rintro ⟨he, hops⟩ x hx
    rcases below_iff.1 hx with rfl | ⟨y, hy, hb⟩
    · exact he
    · exact hops y hy x hb

theorem All.below {P : Expr α → Prop} {x e : Expr α} (h : e.All P) (hx : Below x e) : x.All P :=
  fun y hy => h y (hy.trans hx)

theorem all_unary {P : Expr α → Prop} {i : Nat} {op : UnaryOp α} {x : Expr α} :
    (unary i op x).All P ↔ P (unary i op x) ∧ x.All P := by
  rw [all_iff]; simp [operands]

theorem all_binary {P : Expr α → Prop} {i : Nat} {op : BinaryOp} {x y : Expr α} :
    (binary i op x y).All P ↔ P (binary i op x y) ∧ x.All P ∧ y.All P := by
  rw [all_iff]; simp [operands]

/-! ## Reachable -/

/-- The nodes below a list of roots. -/
def Reachable (roots : List (Expr α)) (x : Expr α) : Prop := ∃ r ∈ roots, Below x r

theorem Reachable.root {roots : List (Expr α)} {r : Expr α} (h : r ∈ roots) : Reachable roots r :=
  ⟨r, h, .refl r⟩

theorem Reachable.below {roots : List (Expr α)} {x e : Expr α} (h : Reachable roots e)
    (k : Below x e) : Reachable roots x := by
  obtain ⟨r, hr, hb⟩ := h
  exact ⟨r, hr, k.trans hb⟩

theorem Reachable.mono {roots roots' : List (Expr α)} {x : Expr α} (h : Reachable roots x)
    (k : ∀ r ∈ roots, r ∈ roots') : Reachable roots' x := by
  obtain ⟨r, hr, hb⟩ := h
  exact ⟨r, k r hr, hb⟩

end Expr

/-! ## Graphs -/

/-- The set holds the operands of its nodes, and each number stands for one of its nodes. -/
structure IsGraph (S : Set (Expr α)) : Prop where
  closed : ∀ e ∈ S, ∀ x ∈ e.operands, x ∈ S
  unique : ∀ x ∈ S, ∀ y ∈ S, x.id = y.id → x = y

namespace IsGraph

variable {S : Set (Expr α)}

theorem below (hS : IsGraph S) {x e : Expr α} (he : e ∈ S) (h : Expr.Below x e) : x ∈ S := by
  induction h with
  | refl => exact he
  | operand hy _ ih => exact ih (hS.closed _ he _ hy)

theorem reachable (hS : IsGraph S) {roots : List (Expr α)} (h : ∀ r ∈ roots, r ∈ S) {x : Expr α}
    (hx : Expr.Reachable roots x) : x ∈ S := by
  obtain ⟨r, hr, hb⟩ := hx
  exact hS.below (h r hr) hb

/-- The number of a node is not used again below its operands. -/
theorem id_ne_of_below_operand (hS : IsGraph S) {x y e : Expr α} (he : e ∈ S)
    (hy : y ∈ e.operands) (h : Expr.Below x y) : x.id ≠ e.id := by
  intro hid
  have hx := hS.below (hS.closed e he y hy) h
  have := hS.unique x hx e he hid
  subst this
  exact Expr.not_below_operand hy h

end IsGraph

/-- A list of nodes with different numbers is a graph when it holds their operands. -/
theorem isGraph_list {l : List (Expr α)} (hclosed : ∀ e ∈ l, ∀ x ∈ e.operands, x ∈ l)
    (hids : (l.map Expr.id).Nodup) : IsGraph {x | x ∈ l} where
  closed := hclosed
  unique _ hx _ hy h := List.inj_on_of_nodup_map hids hx hy h

/-- The nodes below a list of roots form a graph: every number stands for one node. -/
def IsDag (roots : List (Expr α)) : Prop := IsGraph {x | Expr.Reachable roots x}

theorem IsGraph.isDag {S : Set (Expr α)} (hS : IsGraph S) {roots : List (Expr α)}
    (h : ∀ r ∈ roots, r ∈ S) : IsDag roots where
  closed _ he _ hx := Expr.Reachable.below he (Expr.below_of_operand hx)
  unique x hx y hy := hS.unique x (hS.reachable h hx) y (hS.reachable h hy)

end Lyapunov
