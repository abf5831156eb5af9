/-
A change of scalars. A function of the scalars can be applied to the constants and factors of an expression;
the numbers, names and shapes of its nodes stay as they are. So the image of a graph is a graph of the same
form.
-/
import Mathlib.Data.Set.Image
import Lyapunov.Proofs.Graph.Order
import Lyapunov.Proofs.Tape.Shapes

namespace Lyapunov

variable {α β : Type}

/-! ## Matrices -/

namespace Dense

/-- The matrix with the function applied to its entries. -/
def map (φ : α → β) (m : Dense α) : Dense β :=
  ⟨m.rows, m.cols, m.entries.map φ, by rw [Array.size_map, m.size_entries]⟩

@[simp] theorem shape_map (φ : α → β) (m : Dense α) : (m.map φ).shape = m.shape := rfl

theorem get_map [Zero α] [Zero β] {φ : α → β} (h0 : φ 0 = 0) (m : Dense α) (i j : Nat) :
    (m.map φ).get i j = φ (m.get i j) := by
  have hentry (k : Nat) : (m.map φ).entry k = φ (m.entry k) := by
    simp only [entry, map, Array.getD_eq_getD_getElem?, Array.getElem?_map]
    cases m.entries[k]? with
    | none => exact h0.symm
    | some x => rfl
  unfold get
  rw [hentry, apply_ite φ, h0]
  rfl

theorem map_zero [Zero α] [Zero β] {φ : α → β} (h0 : φ 0 = 0) (s : Shape) :
    (zero s : Dense α).map φ = zero s :=
  ext_get rfl rfl fun i j _ _ => by rw [get_map h0, get_zero, get_zero, h0]

end Dense

/-! ## Expressions -/

/-- The operation with the function applied to its factor. -/
def UnaryOp.map (φ : α → β) : UnaryOp α → UnaryOp β
  | .neg => .neg
  | .scale c => .scale (φ c)
  | .transpose => .transpose
  | .reshape s => .reshape s

@[simp] theorem UnaryOp.shape_map (φ : α → β) (op : UnaryOp α) (s : Shape) :
    (op.map φ).shape s = op.shape s := by
  cases op <;> rfl

@[simp] theorem UnaryOp.check_map (φ : α → β) (op : UnaryOp α) (s : Shape) :
    (op.map φ).check s = op.check s := by
  cases op <;> rfl

namespace Expr

/-- The expression with the function applied to its constants and factors. -/
def map (φ : α → β) : Expr α → Expr β
  | .symbol i name s => .symbol i name s
  | .constant i m => .constant i (m.map φ)
  | .unary i op x => .unary i (op.map φ) (x.map φ)
  | .binary i op x y => .binary i op (x.map φ) (y.map φ)

variable (φ : α → β)

@[simp] theorem id_map (e : Expr α) : (e.map φ).id = e.id := by
  cases e <;> rfl

@[simp] theorem shape_map (e : Expr α) : (e.map φ).shape = e.shape := by
  induction e with
  | symbol => rfl
  | constant => rfl
  | unary i op x ih => rw [map, shape_unary, shape_unary, ih, UnaryOp.shape_map]
  | binary i op x y ihx ihy => rw [map, shape_binary, shape_binary, ihx, ihy]

@[simp] theorem isSymbol_map (e : Expr α) : (e.map φ).isSymbol = e.isSymbol := by
  cases e <;> rfl

@[simp] theorem operands_map (e : Expr α) : (e.map φ).operands = e.operands.map (map φ) := by
  cases e <;> rfl

@[simp] theorem checkOperands_map (e : Expr α) : (e.map φ).checkOperands = e.checkOperands := by
  cases e with
  | symbol => rfl
  | constant => rfl
  | unary i op x => rw [map, checkOperands, checkOperands, UnaryOp.check_map, shape_map]
  | binary i op x y => rw [map, checkOperands, checkOperands, shape_map, shape_map]

/-! ## The graph -/

variable {φ}

theorem Below.map {x e : Expr α} (h : Below x e) : Below (x.map φ) (e.map φ) := by
  induction h with
  | refl => exact .refl _
  | @operand y e hy _ ih => exact .operand (by rw [operands_map]; exact List.mem_map_of_mem hy) ih

/-- What is found below the image of an expression are the images of what is found below it. -/
theorem below_map {x : Expr β} {e : Expr α} : Below x (e.map φ) ↔ ∃ y, Below y e ∧ y.map φ = x := by
  constructor
  · intro h
    generalize he : e.map φ = e' at h
    induction h generalizing e with
    | refl => exact ⟨e, .refl e, he⟩
    | operand hy _ ih =>
      subst he
      rw [operands_map] at hy
      obtain ⟨z, hz, rfl⟩ := List.mem_map.1 hy
      obtain ⟨y, hyz, rfl⟩ := ih rfl
      exact ⟨y, .operand hz hyz, rfl⟩
  · rintro ⟨y, hy, rfl⟩
    exact hy.map

theorem all_map {P : Expr β → Prop} {e : Expr α} : (e.map φ).All P ↔ e.All fun x => P (x.map φ) := by
  constructor
  · exact fun h x hx => h _ hx.map
  · intro h x hx
    obtain ⟨y, hy, rfl⟩ := below_map.1 hx
    exact h y hy

theorem Checked.map {e : Expr α} (h : e.Checked) : (e.map φ).Checked :=
  all_map.2 fun x hx => (checkOperands_map φ x).trans (h x hx)

theorem reachable_map {roots : List (Expr α)} {x : Expr β} :
    Reachable (roots.map (map φ)) x ↔ ∃ y, Reachable roots y ∧ y.map φ = x := by
  constructor
  · rintro ⟨_, hr, hx⟩
    obtain ⟨r, hroot, rfl⟩ := List.mem_map.1 hr
    obtain ⟨y, hy, rfl⟩ := below_map.1 hx
    exact ⟨y, ⟨r, hroot, hy⟩, rfl⟩
  · rintro ⟨y, ⟨r, hr, hy⟩, rfl⟩
    exact ⟨_, List.mem_map_of_mem hr, hy.map⟩

end Expr

theorem IsGraph.map {S : Set (Expr α)} (h : IsGraph S) (φ : α → β) : IsGraph (Expr.map φ '' S) where
  closed := by
    rintro _ ⟨e, he, rfl⟩ x hx
    rw [Expr.operands_map] at hx
    obtain ⟨y, hy, rfl⟩ := List.mem_map.1 hx
    exact ⟨y, h.closed e he y hy, rfl⟩
  unique := by
    rintro _ ⟨x, hx, rfl⟩ _ ⟨y, hy, rfl⟩ hid
    rw [Expr.id_map, Expr.id_map] at hid
    rw [h.unique x hx y hy hid]

end Lyapunov
