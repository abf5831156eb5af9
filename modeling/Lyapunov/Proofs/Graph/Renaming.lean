/-
Graphs of one form. Two graphs may have the same form though their nodes have different numbers, their
symbols other names and their constants other scalars. What depends on the form is the same then: shapes,
the checks on operands and the topological order. Over the same scalars the nodes have the same values.
-/
import Lyapunov.Proofs.Graph.Map

namespace Lyapunov

variable {α β : Type}

/-- Which numbers and which names stand for each other. No number stands for two, and names that stand for
each other still do so with a tag in front. -/
structure Renaming where
  number : Nat → Nat → Prop
  name : String → String → Prop
  oneToOne : ∀ {i j k l}, number i j → number k l → (i = k ↔ j = l)
  tagged : ∀ (tag : String) {x y}, name x y → name (tag ++ x) (tag ++ y)

/-- Numbers and names stay as they are. -/
def Renaming.same : Renaming where
  number := (· = ·)
  name := (· = ·)
  oneToOne h k := by rw [h, k]
  tagged _ _ _ h := by rw [h]

theorem Dense.map_id (m : Dense α) : m.map id = m := by
  obtain ⟨rows, cols, entries, h⟩ := m
  simp [map]

theorem UnaryOp.map_id (op : UnaryOp α) : op.map id = op := by
  cases op <;> rfl

/-! ## Expressions -/

namespace Expr

/-- The expressions have the same form, with numbers and names that stand for each other and the function
applied to the constants and factors. -/
inductive Alike (ρ : Renaming) (φ : α → β) : Expr α → Expr β → Prop where
  | symbol {i j : Nat} {x y : String} {s : Shape} : ρ.number i j → ρ.name x y →
    Alike ρ φ (.symbol i x s) (.symbol j y s)
  | constant {i j : Nat} {m : Dense α} : ρ.number i j → Alike ρ φ (.constant i m) (.constant j (m.map φ))
  | unary {i j : Nat} {op : UnaryOp α} {e : Expr α} {e' : Expr β} : ρ.number i j → Alike ρ φ e e' →
    Alike ρ φ (.unary i op e) (.unary j (op.map φ) e')
  | binary {i j : Nat} {op : BinaryOp} {d e : Expr α} {d' e' : Expr β} : ρ.number i j → Alike ρ φ d d' →
    Alike ρ φ e e' → Alike ρ φ (.binary i op d e) (.binary j op d' e')

variable {ρ : Renaming} {φ : α → β}

/-- Where numbers and names stay as they are, the second expression is the image of the first one. -/
theorem alike_same_iff {e : Expr α} {e' : Expr β} : Alike .same φ e e' ↔ e.map φ = e' := by
  constructor
  · intro h
    induction h with
    | symbol hi hx => cases hi; cases hx; rfl
    | constant hi => cases hi; rfl
    | unary hi _ ih => cases hi; rw [map, ih]
    | binary hi _ _ ihd ihe => cases hi; rw [map, ihd, ihe]
  · rintro rfl
    induction e with
    | symbol i x s => exact .symbol rfl rfl
    | constant i m => exact .constant rfl
    | unary i op e ih => exact .unary rfl ih
    | binary i op d e ihd ihe => exact .binary rfl ihd ihe

namespace Alike

section

variable {e : Expr α} {e' : Expr β} (h : Alike ρ φ e e')

include h

theorem number : ρ.number e.id e'.id := by
  cases h <;> assumption

theorem operands : List.Forall₂ (Alike ρ φ) e.operands e'.operands := by
  cases h with
  | symbol | constant => exact .nil
  | unary _ he => exact .cons he .nil
  | binary _ hd he => exact .cons hd (.cons he .nil)

theorem shape : e'.shape = e.shape := by
  induction h with
  | symbol => rfl
  | constant => rfl
  | unary _ _ ih => rw [shape_unary, shape_unary, ih, UnaryOp.shape_map]
  | binary _ _ _ ihd ihe => rw [shape_binary, shape_binary, ihd, ihe]

theorem checkOperands : e'.checkOperands = e.checkOperands := by
  cases h with
  | symbol | constant => rfl
  | unary _ he => rw [Expr.checkOperands, Expr.checkOperands, UnaryOp.check_map, he.shape]
  | binary _ hd he => rw [Expr.checkOperands, Expr.checkOperands, hd.shape, he.shape]

end

/-- Each node below the second expression is of the form of one below the first. -/
theorem exists_below {e : Expr α} {e' x' : Expr β} (h : Alike ρ φ e e') (hx : Below x' e') :
    ∃ x, Below x e ∧ Alike ρ φ x x' := by
  induction hx generalizing e with
  | refl => exact ⟨e, .refl e, h⟩
  | operand hy _ ih =>
    obtain ⟨y, hmem, hyy⟩ := Except.forall₂_exists_right h.operands.flip _ hy
    obtain ⟨x, hbelow, hxx⟩ := ih hyy
    exact ⟨x, .operand hmem hbelow, hxx⟩

/-- Other numbers may stand for each other, provided that the numbers of the nodes do so. -/
theorem imp {ρ' : Renaming} {e : Expr α} {e' : Expr β} (h : Alike ρ φ e e')
    (hnumber : ∀ x x', Below x e → Below x' e' → ρ.number x.id x'.id → ρ'.number x.id x'.id)
    (hname : ∀ {x y}, ρ.name x y → ρ'.name x y) : Alike ρ' φ e e' := by
  induction h with
  | symbol hi hx => exact .symbol (hnumber _ _ (.refl _) (.refl _) hi) (hname hx)
  | constant hi => exact .constant (hnumber _ _ (.refl _) (.refl _) hi)
  | unary hi _ ih =>
    exact .unary (hnumber _ _ (.refl _) (.refl _) hi) (ih fun x x' hx hx' =>
      hnumber x x' (.operand List.mem_cons_self hx) (.operand List.mem_cons_self hx'))
  | binary hi _ _ ihd ihe =>
    refine .binary (hnumber _ _ (.refl _) (.refl _) hi) (ihd fun x x' hx hx' => ?_)
      (ihe fun x x' hx hx' => ?_)
    · exact hnumber x x' (.operand List.mem_cons_self hx) (.operand List.mem_cons_self hx')
    · exact hnumber x x' (.operand (List.mem_cons_of_mem _ List.mem_cons_self) hx)
        (.operand (List.mem_cons_of_mem _ List.mem_cons_self) hx')

end Alike

end Expr

/-- Over the same scalars nodes of one form have one value when their symbols have. -/
theorem value_eq_of_alike [Scalar α] {ρ : Renaming} {e e' : Expr α} (h : Expr.Alike ρ id e e')
    {env env' : Nat → Dense α} (henv : ∀ x x', Expr.Below x e → x.isSymbol = true → Expr.Alike ρ id x x' →
      env x.id = env' x'.id) : e.value env = e'.value env' := by
  induction h with
  | symbol hi hx =>
    rw [Expr.value_symbol, Expr.value_symbol]
    exact congrArg Except.ok (henv _ _ (.refl _) rfl (.symbol hi hx))
  | constant => rw [Dense.map_id]; rfl
  | unary _ _ ih =>
    rw [Expr.value_unary, Expr.value_unary, UnaryOp.map_id, ih fun x x' hx =>
      henv x x' (.operand List.mem_cons_self hx)]
  | binary _ _ _ ihd ihe =>
    rw [Expr.value_binary, Expr.value_binary, ihd fun x x' hx => henv x x' (.operand List.mem_cons_self hx),
      ihe fun x x' hx => henv x x' (.operand (List.mem_cons_of_mem _ List.mem_cons_self) hx)]

/-! ## The topological order -/

section Order

variable {ρ : Renaming} {φ : α → β}

/-- The walks entered corresponding nodes, and left nodes of one form. -/
structure Walk.Alike (ρ : Renaming) (φ : α → β) (w : Walk α) (w' : Walk β) : Prop where
  entered : ∀ {i j : Nat}, ρ.number i j → w.entered.contains i = w'.entered.contains j
  left : List.Forall₂ (Expr.Alike ρ φ) w.left w'.left

variable {w : Walk α} {w' : Walk β}

theorem Walk.alike_start : Walk.Alike ρ φ .start .start :=
  ⟨fun _ => by simp [start], .nil⟩

theorem Walk.Alike.enter (h : Walk.Alike ρ φ w w') {e : Expr α} {e' : Expr β}
    (he : ρ.number e.id e'.id) : Walk.Alike ρ φ (w.enter e) (w'.enter e') where
  entered {i j} hij := by
    have hsame : (e.id == i) = (e'.id == j) := by
      rw [Bool.eq_iff_iff, beq_iff_eq, beq_iff_eq]
      exact ρ.oneToOne he hij
    simp only [Walk.enter, Std.HashSet.contains_insert, h.entered hij, hsame]
  left := h.left

theorem Walk.Alike.leave (h : Walk.Alike ρ φ w w') {e : Expr α} {e' : Expr β}
    (he : Expr.Alike ρ φ e e') : Walk.Alike ρ φ (w.leave e) (w'.leave e') :=
  ⟨h.entered, .cons he h.left⟩

/-- A visit is alike when the visits of the operands are. -/
theorem Walk.Alike.visit_of_operands (h : Walk.Alike ρ φ w w') {e : Expr α} {e' : Expr β}
    (he : Expr.Alike ρ φ e e') (hoperands : ∀ {v : Walk α} {v' : Walk β}, Walk.Alike ρ φ v v' →
      Walk.Alike ρ φ (e.operands.foldl Walk.visit v) (e'.operands.foldl Walk.visit v')) :
    Walk.Alike ρ φ (w.visit e) (w'.visit e') := by
  have hentered := h.entered he.number
  cases hw : w.entered.contains e.id with
  | true => rwa [Walk.visit_of_contains hw, Walk.visit_of_contains (hentered ▸ hw)]
  | false =>
    rw [Walk.visit_of_not_contains hw, Walk.visit_of_not_contains (hentered ▸ hw)]
    exact (hoperands (h.enter he.number)).leave he

theorem Walk.Alike.visit (h : Walk.Alike ρ φ w w') {e : Expr α} {e' : Expr β}
    (he : Expr.Alike ρ φ e e') : Walk.Alike ρ φ (w.visit e) (w'.visit e') := by
  -- by induction on the form; a visit leaves alone what was entered before, on both sides or on none
  induction he generalizing w w' with
  | symbol hi hx =>
    exact h.visit_of_operands (.symbol hi hx) fun h => h
  | constant hi => exact h.visit_of_operands (.constant hi) fun h => h
  | unary hi he ih => exact h.visit_of_operands (.unary hi he) fun h => ih h
  | binary hi hd he ihd ihe => exact h.visit_of_operands (.binary hi hd he) fun h => ihe (ihd h)

theorem Walk.Alike.foldl_visit {roots : List (Expr α)} {roots' : List (Expr β)}
    (hroots : List.Forall₂ (Expr.Alike ρ φ) roots roots') (h : Walk.Alike ρ φ w w') :
    Walk.Alike ρ φ (roots.foldl Walk.visit w) (roots'.foldl Walk.visit w') := by
  induction hroots generalizing w w' with
  | nil => exact h
  | cons he _ ih => exact ih (h.visit he)

/-- Nodes of one form come in the same order. -/
theorem Expr.forall₂_topologicalOrder {roots : List (Expr α)} {roots' : List (Expr β)}
    (h : List.Forall₂ (Expr.Alike ρ φ) roots roots') :
    List.Forall₂ (Expr.Alike ρ φ) (topologicalOrder roots) (topologicalOrder roots') := by
  rw [topologicalOrder_eq, topologicalOrder_eq, postorder, postorder]
  exact List.rel_reverse (Walk.alike_start.foldl_visit h).left

end Order

end Lyapunov
