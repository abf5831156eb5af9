/-
The shape of a node is the shape of its value, provided that operands fit and symbols are bound to
matrices of their shapes.
-/
import Lyapunov.Proofs.Except
import Lyapunov.Proofs.Graph.Reach
import Lyapunov.Proofs.Tape.Value

namespace Lyapunov

variable {α : Type}

/-! ## Operations -/

theorem Shape.require_eq_ok {condition : Bool} {requirement : ShapeRequirement} {got : Shape} :
    Shape.require condition requirement got = .ok () ↔ condition = true := by
  unfold Shape.require
  cases condition with
  | false => constructor <;> intro h <;> cases h
  | true => exact ⟨fun _ => rfl, fun _ => rfl⟩

theorem Shape.require_eq_error {condition : Bool} {requirement : ShapeRequirement} {got : Shape} {err : Error} :
    Shape.require condition requirement got = .error err ↔
      condition = false ∧ err = .shapeMismatch requirement got := by
  unfold Shape.require
  cases condition with
  | false => exact ⟨fun h => (by cases h; exact ⟨rfl, rfl⟩), fun ⟨_, h⟩ => h ▸ rfl⟩
  | true => exact ⟨fun h => (by cases h), fun ⟨h, _⟩ => (by cases h)⟩

theorem UnaryOp.check_reshape {s t : Shape} :
    (UnaryOp.reshape t : UnaryOp α).check s = .ok () ↔ s.size = t.size := by
  unfold UnaryOp.check
  rw [Shape.require_eq_ok, beq_iff_eq]

theorem BinaryOp.check_add {s t : Shape} : BinaryOp.add.check s t = .ok () ↔ s = t := by
  unfold BinaryOp.check
  rw [Shape.require_eq_ok, beq_iff_eq]

theorem BinaryOp.check_matmul {s t : Shape} : BinaryOp.matmul.check s t = .ok () ↔ s.cols = t.rows := by
  unfold BinaryOp.check
  rw [Shape.require_eq_ok, beq_iff_eq]

theorem BinaryOp.check_solve {s t : Shape} :
    BinaryOp.solve.check s t = .ok () ↔ s.rows = s.cols ∧ s.rows = t.rows := by
  unfold BinaryOp.check
  rw [Shape.require_eq_ok, Bool.and_eq_true, Shape.isSquare, beq_iff_eq, beq_iff_eq]

section Scalar

variable [Scalar α]

theorem Dense.shape_eliminate {n : Nat} {m b x : Dense α} (h : Dense.eliminate n m b = some x) :
    x.shape = ⟨n, b.cols⟩ := by
  cases n with
  | zero => cases h; rfl
  | succ n =>
    rw [Dense.eliminate] at h
    dsimp only at h
    split at h
    · cases h
    · obtain ⟨y, -, rfl⟩ := Option.map_eq_some_iff.1 h
      rfl

theorem shape_solution {m b x : Dense α} (hm : m.rows = m.cols) (h : solution m b = .ok x) :
    x.shape = ⟨m.cols, b.cols⟩ := by
  unfold solution at h
  split at h
  · rename_i hb; cases h; rw [hb]; rfl
  · split at h
    · cases h
    · split at h
      · rename_i hs; cases h; rw [Dense.shape_eliminate hs, hm]
      · cases h

theorem BinaryOp.eval_assertion {message : String} {x y v : Dense α} :
    (BinaryOp.assertion message).eval x y = .ok v ↔ (y.get 0 0 == 1) = true ∧ v = x := by
  show (if y.get 0 0 == 1 then pure x else throw (Error.assertionFailed message)) = _ ↔ _
  split
  · rename_i h
    constructor
    · intro k; cases k; exact ⟨h, rfl⟩
    · rintro ⟨-, rfl⟩; rfl
  · rename_i h
    constructor
    · intro k; cases k
    · rintro ⟨k, -⟩; exact absurd k h

theorem UnaryOp.shape_eval (op : UnaryOp α) (x : Dense α) : (op.eval x).shape = op.shape x.shape := by
  cases op <;> rfl

theorem BinaryOp.shape_eval {op : BinaryOp} {x y v : Dense α} (hc : op.check x.shape y.shape = .ok ())
    (h : op.eval x y = .ok v) : v.shape = op.shape x.shape y.shape := by
  cases op with
  | solve => exact shape_solution (BinaryOp.check_solve.1 hc).1 h
  | assertion message =>
    obtain ⟨-, rfl⟩ := BinaryOp.eval_assertion.1 h
    rfl
  | _ => cases h; rfl

end Scalar

/-! ## Expressions -/

namespace Expr

/-- The operands of every node below fit. -/
def Checked (e : Expr α) : Prop := e.All fun x => x.checkOperands = .ok ()

/-- The symbols below are bound to matrices of their shapes. -/
def Bound (env : Nat → Dense α) (e : Expr α) : Prop :=
  e.All fun x => x.isSymbol = true → (env x.id).shape = x.shape

variable [Scalar α] {env : Nat → Dense α}

/-- The expression has the value `v`, and the shape of the value. -/
structure Computes (env : Nat → Dense α) (e : Expr α) (v : Dense α) : Prop where
  value : e.value env = .ok v
  shape : e.shape = v.shape

theorem value_unary_eq_ok {i : Nat} {op : UnaryOp α} {x : Expr α} {v : Dense α} :
    (unary i op x).value env = .ok v ↔ ∃ a, x.value env = .ok a ∧ op.eval a = v := by
  rw [value_unary]
  cases x.value env with
  | error e => constructor <;> simp [Functor.map, Except.map]
  | ok a => simp [Functor.map, Except.map]

theorem value_binary_eq_ok {i : Nat} {op : BinaryOp} {x y : Expr α} {v : Dense α} :
    (binary i op x y).value env = .ok v ↔
      ∃ a b, x.value env = .ok a ∧ y.value env = .ok b ∧ op.eval a b = .ok v := by
  rw [value_binary, Except.bind_eq_ok]
  simp only [Except.bind_eq_ok, exists_and_left]

/-- Everything below an expression with a value has a value. -/
theorem exists_value_of_below {x e : Expr α} (h : ∃ v, e.value env = .ok v) (hx : Below x e) :
    ∃ v, x.value env = .ok v := by
  induction hx with
  | refl => exact h
  | @operand y e hy _ ih =>
    refine ih ?_
    obtain ⟨v, hv⟩ := h
    cases e with
    | symbol => cases hy
    | constant => cases hy
    | unary i op z =>
      obtain ⟨a, ha, -⟩ := value_unary_eq_ok.1 hv
      rw [List.mem_singleton.1 hy]
      exact ⟨a, ha⟩
    | binary i op z w =>
      obtain ⟨a, b, ha, hb, -⟩ := value_binary_eq_ok.1 hv
      simp only [operands, List.mem_cons, List.not_mem_nil, or_false] at hy
      rcases hy with rfl | rfl
      exacts [⟨a, ha⟩, ⟨b, hb⟩]

/-- The value depends on the values of the symbols below alone. -/
theorem value_congr {env' : Nat → Dense α} {e : Expr α}
    (h : ∀ x, Below x e → x.isSymbol = true → env x.id = env' x.id) :
    e.value env = e.value env' := by
  induction e with
  | symbol i name s => exact congrArg _ (h _ (.refl _) rfl)
  | constant i m => rfl
  | unary i op x ih =>
    rw [value_unary, value_unary, ih fun y hy => h y (.operand (List.mem_singleton_self x) hy)]
  | binary i op x y ihx ihy =>
    rw [value_binary, value_binary, ihx fun z hz => h z (.operand (by simp [operands]) hz),
      ihy fun z hz => h z (.operand (by simp [operands]) hz)]

theorem Computes.unary {x : Expr α} {a : Dense α} (h : x.Computes env a) (i : Nat) (op : UnaryOp α) :
    (unary i op x).Computes env (op.eval a) :=
  ⟨value_unary_eq_ok.2 ⟨a, h.value, rfl⟩, by rw [shape_unary, h.shape, UnaryOp.shape_eval]⟩

theorem Computes.binary {x y : Expr α} {a b v : Dense α} {op : BinaryOp} (hx : x.Computes env a)
    (hy : y.Computes env b) (hc : op.check a.shape b.shape = .ok ()) (hv : op.eval a b = .ok v)
    (i : Nat) : (binary i op x y).Computes env v :=
  ⟨value_binary_eq_ok.2 ⟨a, b, hx.value, hy.value, hv⟩, by
    rw [shape_binary, hx.shape, hy.shape, BinaryOp.shape_eval hc hv]⟩

/-- Operands that fit have values that fit. -/
theorem Computes.check {i : Nat} {op : BinaryOp} {x y : Expr α} {a b : Dense α}
    (hx : x.Computes env a) (hy : y.Computes env b) (h : (Expr.binary i op x y).Checked) :
    op.check a.shape b.shape = .ok () := by
  rw [← hx.shape, ← hy.shape]
  exact (all_binary.1 h).1

/-- The expression can be evaluated: operands fit, symbols are bound to matrices of their shapes, and
it has a value. -/
structure Evaluated (env : Nat → Dense α) (e : Expr α) : Prop where
  checked : e.Checked
  bound : e.Bound env
  value : ∃ v, e.value env = .ok v

theorem Evaluated.below {x e : Expr α} (h : e.Evaluated env) (hx : Below x e) : x.Evaluated env :=
  ⟨h.checked.below hx, h.bound.below hx, exists_value_of_below h.value hx⟩

theorem Evaluated.unary {i : Nat} {op : UnaryOp α} {x : Expr α} (h : (unary i op x).Evaluated env) :
    x.Evaluated env := h.below (below_of_operand (List.mem_singleton_self x))

theorem Evaluated.binary {i : Nat} {op : BinaryOp} {x y : Expr α}
    (h : (binary i op x y).Evaluated env) : x.Evaluated env ∧ y.Evaluated env :=
  ⟨h.below (below_of_operand (by simp [operands])), h.below (below_of_operand (by simp [operands]))⟩

/-- The value of an expression that can be evaluated has the shape of the expression. -/
theorem Evaluated.computes {e : Expr α} (h : e.Evaluated env) : e.Computes env (e.valueD env) := by
  induction e with
  | symbol i name s => exact ⟨rfl, (h.bound _ (.refl _) rfl).symm⟩
  | constant i m => exact ⟨rfl, rfl⟩
  | unary i op x ih =>
    have hx := ih h.unary
    have := hx.unary i op
    rwa [← valueD_eq env this.value] at this
  | binary i op x y ihx ihy =>
    obtain ⟨v, hv⟩ := h.value
    have hx := ihx h.binary.1
    have hy := ihy h.binary.2
    obtain ⟨a, b, ha, hb, hop⟩ := value_binary_eq_ok.1 hv
    rw [← valueD_eq env ha, ← valueD_eq env hb] at hop
    have := hx.binary hy (hx.check hy h.checked) hop i
    rwa [← valueD_eq env this.value] at this

theorem Evaluated.shape_valueD {e : Expr α} (h : e.Evaluated env) : (e.valueD env).shape = e.shape :=
  h.computes.shape.symm

theorem Evaluated.valueD_unary {i : Nat} {op : UnaryOp α} {x : Expr α}
    (h : (Expr.unary i op x).Evaluated env) :
    (Expr.unary i op x).valueD env = op.eval (x.valueD env) :=
  valueD_eq env (h.unary.computes.unary i op).value

/-- The values of the operands fit, and the value of the node is that of the operation on them. -/
theorem Evaluated.eval_valueD {i : Nat} {op : BinaryOp} {x y : Expr α}
    (h : (Expr.binary i op x y).Evaluated env) :
    op.check (x.valueD env).shape (y.valueD env).shape = .ok () ∧
      op.eval (x.valueD env) (y.valueD env) = .ok ((Expr.binary i op x y).valueD env) := by
  obtain ⟨hx, hy⟩ := h.binary
  refine ⟨?_, ?_⟩
  · rw [hx.shape_valueD, hy.shape_valueD]
    exact (all_binary.1 h.checked).1
  · obtain ⟨a, b, ha, hb, hop⟩ := value_binary_eq_ok.1 h.computes.value
    rwa [valueD_eq env ha, valueD_eq env hb]

end Expr

end Lyapunov
