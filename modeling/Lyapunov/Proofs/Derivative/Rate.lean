/-
The rate of change of an expression. `Expr.DualValue` evaluates an expression over dual numbers, where
an assertion tests the real part of its condition and a system has its unique solution; `Expr.rate`
gives the epsilon part by the rules of differentiation. An expression that can be evaluated at a point
has exactly one value over the dual numbers there: its value with its rate of change.
-/
import Lyapunov.Proofs.Exact.Dual
import Lyapunov.Proofs.Exact.Solve
import Lyapunov.Proofs.Tape.Shapes

namespace Lyapunov

open TrivSqZeroExt

variable {K : Type} [ExactScalar K]

/-! ## Values over the dual numbers -/

/-- The value over the dual numbers, when the symbol with number `i` has the value `env i`. -/
inductive Expr.DualValue (env : Nat → Dense (DualNumber K)) :
    Expr K → Dense (DualNumber K) → Prop where
  | symbol (i : Nat) (name : String) (s : Shape) : DualValue env (.symbol i name s) (env i)
  | constant (i : Nat) (m : Dense K) : DualValue env (.constant i m) (.dual m (.zero m.shape))
  | neg {x a} (i : Nat) : DualValue env x a → DualValue env (.unary i .neg x) a.neg
  | scale {x a} (i : Nat) (c : K) :
      DualValue env x a → DualValue env (.unary i (.scale c) x) (a.scale (inl c))
  | transpose {x a} (i : Nat) : DualValue env x a → DualValue env (.unary i .transpose x) a.transpose
  | reshape {x a} (i : Nat) (s : Shape) :
      DualValue env x a → DualValue env (.unary i (.reshape s) x) (a.reshape s)
  | add {x y a b} (i : Nat) :
      DualValue env x a → DualValue env y b → DualValue env (.binary i .add x y) (a.add b)
  | matmul {x y a b} (i : Nat) :
      DualValue env x a → DualValue env y b → DualValue env (.binary i .matmul x y) (a.mul b)
  | kron {x y a b} (i : Nat) :
      DualValue env x a → DualValue env y b → DualValue env (.binary i .kron x y) (a.kron b)
  | kronContractLeft {x y a b} (i : Nat) : DualValue env x a → DualValue env y b →
      DualValue env (.binary i .kronContractLeft x y) (a.kronContractLeft b)
  | kronContractRight {x y a b} (i : Nat) : DualValue env x a → DualValue env y b →
      DualValue env (.binary i .kronContractRight x y) (a.kronContractRight b)
  | solve {x y m b v} (i : Nat) : DualValue env x m → DualValue env y b →
      v.shape = ⟨m.cols, b.cols⟩ → m.mul v = b →
      (∀ w, w.shape = ⟨m.cols, b.cols⟩ → m.mul w = b → w = v) →
      DualValue env (.binary i .solve x y) v
  | assertion {x y a c} (i : Nat) (message : String) : DualValue env x a → DualValue env y c →
      (c.get 0 0).fst = 1 → DualValue env (.binary i (.assertion message) x y) a

/-- There is at most one value. -/
theorem Expr.DualValue.unique {env : Nat → Dense (DualNumber K)} {e : Expr K}
    {v w : Dense (DualNumber K)} (hv : e.DualValue env v) (hw : e.DualValue env w) : v = w := by
  induction hv generalizing w with
  | symbol => cases hw; rfl
  | constant => cases hw; rfl
  | neg i _ ih => cases hw with | neg _ h => rw [ih h]
  | scale i c _ ih => cases hw with | scale _ _ h => rw [ih h]
  | transpose i _ ih => cases hw with | transpose _ h => rw [ih h]
  | reshape i s _ ih => cases hw with | reshape _ _ h => rw [ih h]
  | add i _ _ ihx ihy => cases hw with | add _ hx hy => rw [ihx hx, ihy hy]
  | matmul i _ _ ihx ihy => cases hw with | matmul _ hx hy => rw [ihx hx, ihy hy]
  | kron i _ _ ihx ihy => cases hw with | kron _ hx hy => rw [ihx hx, ihy hy]
  | kronContractLeft i _ _ ihx ihy =>
    cases hw with | kronContractLeft _ hx hy => rw [ihx hx, ihy hy]
  | kronContractRight i _ _ ihx ihy =>
    cases hw with | kronContractRight _ hx hy => rw [ihx hx, ihy hy]
  | solve i _ _ hs hm _ ihx ihy =>
    cases hw with
    | solve _ hx hy _ _ hunique =>
      cases ihx hx
      cases ihy hy
      exact hunique _ hs hm
  | assertion i message _ _ _ ihx _ => cases hw with | assertion _ _ hx _ _ => rw [ihx hx]

/-! ## Rates of change -/

variable {R : Type} [LocalScalar R]

/-- The rate of change of an operation with the value `v` on `x` and `y`, given those of `x` and `y`.
The solution of a system with the matrix `x` changes so that its product with `x` changes as `y`. -/
def BinaryOp.rate (op : BinaryOp) (x y v dx dy : Dense R) : Dense R :=
  match op with
  | .add => dx.add dy
  | .matmul => (dx.mul y).add (x.mul dy)
  | .kron => (dx.kron y).add (x.kron dy)
  | .kronContractLeft => (dx.kronContractLeft y).add (x.kronContractLeft dy)
  | .kronContractRight => (dx.kronContractRight y).add (x.kronContractRight dy)
  | .solve => solutionD x (dy.add (dx.mul v).neg)
  | .assertion _ => dx

/-- The rate of change of an expression at the values `env` of its symbols, when they change at the
rates `denv`. -/
def Expr.rate (env denv : Nat → Dense R) : Expr R → Dense R
  | .symbol i _ _ => denv i
  | .constant _ m => .zero m.shape
  | .unary _ op x => op.eval (x.rate env denv)
  | .binary i op x y => op.rate (x.valueD env) (y.valueD env)
      ((Expr.binary i op x y).valueD env) (x.rate env denv) (y.rate env denv)

theorem Expr.rate_of_isSymbol (env denv : Nat → Dense R) {e : Expr R} (h : e.isSymbol = true) :
    e.rate env denv = denv e.id := by
  cases e with
  | symbol => rfl
  | _ => cases h

/-! ## Systems -/

section Solve

variable {m b v dm db : Dense R}

/-- The solution with its rate of change is the unique solution over the dual numbers. -/
theorem dual_solution (hm : m.rows = m.cols) (hb : m.rows = b.rows) (h : solution m b = .ok v)
    (hdm : dm.shape = m.shape) (hdb : db.shape = b.shape) :
    (Dense.dual m dm).mul (Dense.dual v (solutionD m (db.add (dm.mul v).neg))) = Dense.dual b db ∧
      ∀ w : Dense (DualNumber R), w.shape = ⟨m.cols, b.cols⟩ →
        (Dense.dual m dm).mul w = Dense.dual b db →
        w = Dense.dual v (solutionD m (db.add (dm.mul v).neg)) := by
  obtain ⟨hv, hmv⟩ := Dense.solution_eq_ok hm hb h
  obtain ⟨-, hdv, hmdv⟩ := solutionD_spec (c := db.add (dm.mul v).neg) hm hb h hdb
  have hshape : db.shape = (dm.mul v).shape := by
    rw [hdb, Dense.shape_mul, Dense.rows_eq hdm, hb, Dense.cols_of_shape hv]; rfl
  refine ⟨?_, fun w hw hmw => ?_⟩
  · have hmdv' : (m.mul (solutionD m (db.add (dm.mul v).neg))).shape = (dm.mul v).shape := by
      rw [hmdv, Dense.shape_add, hshape]
    rw [Dense.dual_mul hdm (hdv.trans hv.symm), hmv, (Dense.add_eq_iff hmdv' hshape).2 hmdv]
  · -- the real parts solve the system itself, and then the epsilon parts that for the rate of change
    have hmw' := hmw
    have hep : w.ep.shape = w.re.shape := rfl
    rw [← Dense.dual_re_ep w, Dense.dual_mul hdm hep] at hmw'
    have hsum : ((dm.mul w.re).add (m.mul w.ep)).shape = (m.mul w.re).shape := by
      rw [Dense.shape_add, Dense.shape_mul, Dense.shape_mul, Dense.rows_eq hdm]
    obtain ⟨hre, hep⟩ := Dense.eq_of_dual_eq hsum hdb hmw'
    have hrev : w.re = v := Dense.solution_unique hm ⟨v, h⟩ hw hv (hre.trans hmv.symm)
    have hs : (m.mul w.ep).shape = (dm.mul v).shape := by
      rw [← hrev, Dense.shape_mul, Dense.shape_mul, Dense.rows_eq hdm]; rfl
    rw [hrev] at hep
    have hepv : w.ep = solutionD m (db.add (dm.mul v).neg) :=
      Dense.solution_unique hm ⟨v, h⟩ hw hdv
        (((Dense.add_eq_iff hs hshape).1 hep).trans hmdv.symm)
    rw [← hepv, ← hrev, Dense.dual_re_ep]

end Solve

/-! ## The parts of a rate of change -/

namespace BinaryOp

/-- The part of the rate of change that comes from the first operand. -/
def rateLeft (op : BinaryOp) (x y v dx : Dense R) : Dense R :=
  match op with
  | .add => dx
  | .matmul => dx.mul y
  | .kron => dx.kron y
  | .kronContractLeft => dx.kronContractLeft y
  | .kronContractRight => dx.kronContractRight y
  | .solve => solutionD x (dx.mul v).neg
  | .assertion _ => dx

/-- The part of the rate of change that comes from the second operand. -/
def rateRight (op : BinaryOp) (x dy : Dense R) : Dense R :=
  match op with
  | .add => dy
  | .matmul => x.mul dy
  | .kron => x.kron dy
  | .kronContractLeft => x.kronContractLeft dy
  | .kronContractRight => x.kronContractRight dy
  | .solve => solutionD x dy
  | .assertion _ => .zero x.shape

section

variable {op : BinaryOp} {x y v dx dy : Dense R} (hc : op.check x.shape y.shape = .ok ())
  (hv : op.eval x y = .ok v)

/-- The right-hand side of the system whose solution is the part from the matrix. -/
theorem shape_neg_mul (hc : solve.check x.shape y.shape = .ok ()) (hv : solve.eval x y = .ok v)
    (hx : dx.shape = x.shape) : (dx.mul v).neg.shape = y.shape := by
  rw [Dense.shape_neg, Dense.shape_mul, Dense.rows_eq hx, Dense.cols_of_shape (shape_eval hc hv)]
  exact congrArg (fun n => (⟨n, y.cols⟩ : Shape)) (check_solve.1 hc).2

include hc hv

theorem shape_rateLeft (hx : dx.shape = x.shape) : (op.rateLeft x y v dx).shape = v.shape := by
  rw [shape_eval hc hv]
  cases op with
  | solve =>
    obtain ⟨hm, hb⟩ := check_solve.1 hc
    exact (solutionD_spec hm hb hv (shape_neg_mul hc hv hx)).2.1
  | add | assertion message => exact hx
  | matmul | kron | kronContractLeft | kronContractRight =>
    simp only [rateLeft, Dense.shape_mul, Dense.shape_kron, Dense.shape_kronContractLeft,
      Dense.shape_kronContractRight, Dense.rows_eq hx, Dense.cols_eq hx]
    rfl

theorem shape_rateRight (hy : dy.shape = y.shape) : (op.rateRight x dy).shape = v.shape := by
  rw [shape_eval hc hv]
  cases op with
  | solve =>
    obtain ⟨hm, hb⟩ := check_solve.1 hc
    exact (solutionD_spec hm hb hv hy).2.1
  | add =>
    have hs : x.shape = y.shape := by simpa [check, Shape.require_eq_ok] using hc
    exact hy.trans hs.symm
  | assertion message => rfl
  | matmul | kron | kronContractLeft | kronContractRight =>
    simp only [rateRight, Dense.shape_mul, Dense.shape_kron, Dense.shape_kronContractLeft,
      Dense.shape_kronContractRight, Dense.rows_eq hy, Dense.cols_eq hy]
    rfl

/-- The rate of change is the sum of its parts. -/
theorem rate_eq_add (hx : dx.shape = x.shape) (hy : dy.shape = y.shape) :
    op.rate x y v dx dy = (op.rateLeft x y v dx).add (op.rateRight x dy) := by
  cases op with
  | assertion message =>
    show dx = dx.add (.zero x.shape)
    rw [← hx, Dense.add_zero']
  | solve =>
    obtain ⟨hm, hb⟩ := check_solve.1 hc
    have hs := shape_neg_mul hc hv hx
    obtain ⟨-, hshape, hmul⟩ := solutionD_spec (c := dy.add (dx.mul v).neg) hm hb hv hy
    obtain ⟨-, hshape₁, hmul₁⟩ := solutionD_spec hm hb hv hs
    obtain ⟨-, hshape₂, hmul₂⟩ := solutionD_spec hm hb hv hy
    refine Dense.solution_unique hm ⟨v, hv⟩ hshape hshape₁ ?_
    rw [rate, rateLeft, rateRight, hmul, Dense.mul_add' x (hshape₁.trans hshape₂.symm), hmul₁, hmul₂]
    exact Dense.add_comm' (hy.trans hs.symm)
  | _ => rfl

theorem rateLeft_zero : op.rateLeft x y v (.zero x.shape) = .zero v.shape := by
  rw [shape_eval hc hv]
  cases op with
  | solve =>
    obtain ⟨hm, hb⟩ := check_solve.1 hc
    have hs := shape_neg_mul hc hv (Dense.shape_zero x.shape)
    have hzero : ((Dense.zero x.shape).mul v).neg = .zero y.shape := by
      rw [← hs, Product.mul_eq_apply, Product.zero_apply, Dense.neg_zero']
      rfl
    rw [rateLeft, hzero]
    exact solutionD_zero hm hb hv
  | add | assertion message => rfl
  | matmul => exact (Product.mul_eq_apply _ _).trans (Product.zero_apply _ _ _)
  | kron => exact (Product.kron_eq_apply _ _).trans (Product.zero_apply _ _ _)
  | kronContractLeft => exact (Product.kronContractLeft_eq_apply _ _).trans (Product.zero_apply _ _ _)
  | kronContractRight => exact (Product.kronContractRight_eq_apply _ _).trans (Product.zero_apply _ _ _)

theorem rateRight_zero : op.rateRight x (.zero y.shape) = .zero v.shape := by
  rw [shape_eval hc hv]
  cases op with
  | solve =>
    obtain ⟨hm, hb⟩ := check_solve.1 hc
    exact solutionD_zero hm hb hv
  | add =>
    have hs : x.shape = y.shape := by simpa [check, Shape.require_eq_ok] using hc
    exact congrArg Dense.zero hs.symm
  | assertion message => rfl
  | matmul => exact (Product.mul_eq_apply _ _).trans (Product.apply_zero _ _ _)
  | kron => exact (Product.kron_eq_apply _ _).trans (Product.apply_zero _ _ _)
  | kronContractLeft => exact (Product.kronContractLeft_eq_apply _ _).trans (Product.apply_zero _ _ _)
  | kronContractRight => exact (Product.kronContractRight_eq_apply _ _).trans (Product.apply_zero _ _ _)

end

end BinaryOp

/-! ## The rate of change is the epsilon part -/

theorem BinaryOp.shape_rate {op : BinaryOp} {x y v dx dy : Dense R}
    (hc : op.check x.shape y.shape = .ok ()) (hv : op.eval x y = .ok v) (hx : dx.shape = x.shape)
    (hy : dy.shape = y.shape) : (op.rate x y v dx dy).shape = v.shape := by
  rw [rate_eq_add hc hv hx hy, Dense.shape_add, shape_rateLeft hc hv hx]

namespace Expr

variable {env denv : Nat → Dense R} {e : Expr R}

theorem Evaluated.shape_rate (h : e.Evaluated env) (hd : e.Bound denv) :
    (e.rate env denv).shape = (e.valueD env).shape := by
  induction e with
  | symbol i name s => exact (hd _ (.refl _) rfl).trans h.shape_valueD.symm
  | constant i m => rfl
  | unary i op x ih =>
    have hx := ih h.unary (all_unary.1 hd).2
    rw [h.valueD_unary, UnaryOp.shape_eval, rate, UnaryOp.shape_eval, hx]
  | binary i op x y ihx ihy =>
    obtain ⟨hc, hv⟩ := h.eval_valueD
    exact BinaryOp.shape_rate hc hv (ihx h.binary.1 (all_binary.1 hd).2.1)
      (ihy h.binary.2 (all_binary.1 hd).2.2)

/-- Over the dual numbers the expression has its value with its rate of change. -/
theorem Evaluated.dualValue {env denv : Nat → Dense K} {e : Expr K} (h : e.Evaluated env) (hd : e.Bound denv) :
    e.DualValue (fun i => .dual (env i) (denv i)) (.dual (e.valueD env) (e.rate env denv)) := by
  induction e with
  | symbol i name s => exact .symbol i name s
  | constant i m => exact .constant i m
  | unary i op x ih =>
    have hx := ih h.unary (all_unary.1 hd).2
    have hs := h.unary.shape_rate (all_unary.1 hd).2
    rw [h.valueD_unary, rate]
    cases op with
    | neg => exact Dense.dual_neg hs ▸ hx.neg i
    | scale c => exact Dense.dual_scale hs c ▸ hx.scale i c
    | transpose => exact Dense.dual_transpose hs ▸ hx.transpose i
    | reshape s => exact Dense.dual_reshape hs s ▸ hx.reshape i s
  | binary i op x y ihx ihy =>
    obtain ⟨hc, hv⟩ := h.eval_valueD
    obtain ⟨-, hdx, hdy⟩ := all_binary.1 hd
    have hx := ihx h.binary.1 hdx
    have hy := ihy h.binary.2 hdy
    have hsx := h.binary.1.shape_rate hdx
    have hsy := h.binary.2.shape_rate hdy
    rw [rate]
    cases op with
    | add =>
      have hs : (x.valueD env).shape = (y.valueD env).shape := by
        simpa [BinaryOp.check, Shape.require_eq_ok] using hc
      rw [← Except.ok.inj hv]
      exact Dense.dual_add hsx hsy hs ▸ hx.add i hy
    | matmul =>
      rw [← Except.ok.inj hv]
      exact Dense.dual_mul hsx hsy ▸ hx.matmul i hy
    | kron =>
      rw [← Except.ok.inj hv]
      exact Dense.dual_kron hsx hsy ▸ hx.kron i hy
    | kronContractLeft =>
      rw [← Except.ok.inj hv]
      exact Dense.dual_kronContractLeft hsx hsy ▸ hx.kronContractLeft i hy
    | kronContractRight =>
      rw [← Except.ok.inj hv]
      exact Dense.dual_kronContractRight hsx hsy ▸ hx.kronContractRight i hy
    | solve =>
      obtain ⟨hm, hb⟩ := BinaryOp.check_solve.1 hc
      obtain ⟨hmul, hunique⟩ := dual_solution hm hb hv hsx hsy
      exact .solve i hx hy (Dense.solution_eq_ok hm hb hv).1 hmul hunique
    | assertion message =>
      obtain ⟨htest, heq⟩ := BinaryOp.eval_assertion.1 hv
      rw [heq]
      exact hx.assertion i message hy
        ((Dense.fst_get_dual _ _ 0 0).trans ((Scalar.beq_iff _ _).1 htest))

end Expr

/-! ## Expressions that no symbol reaches -/

/-- Whether the value depends on that of a symbol; the condition of an assertion does not count. -/
def Expr.seeded {α : Type} : Expr α → Bool
  | .symbol .. => true
  | .constant .. => false
  | .unary _ _ x => x.seeded
  | .binary _ (.assertion _) x _ => x.seeded
  | .binary _ _ x y => x.seeded || y.seeded

theorem Expr.seeded_binary {α : Type} {i : Nat} {op : BinaryOp} {x y : Expr α}
    (h : (Expr.binary i op x y).seeded = true) : x.seeded = true ∨ y.seeded = true := by
  cases op with
  | assertion message => exact .inl h
  | _ => exact Bool.or_eq_true_iff.1 h

theorem UnaryOp.eval_zero (op : UnaryOp R) (s : Shape) :
    op.eval (.zero s) = .zero (op.eval (.zero s : Dense R)).shape := by
  cases op with
  | neg => exact Dense.neg_zero' s
  | scale c => exact Dense.scale_zero c s
  | transpose => exact Dense.transpose_zero s
  | reshape t => exact Dense.reshape_zero s t

/-- The result of an operation on operands that do not change does not change. -/
theorem BinaryOp.rate_zero {op : BinaryOp} {x y v dy : Dense R} (hc : op.check x.shape y.shape = .ok ())
    (hv : op.eval x y = .ok v) (hdy : (∀ message, op ≠ .assertion message) → dy = .zero y.shape) :
    op.rate x y v (.zero x.shape) dy = .zero v.shape := by
  cases op with
  | assertion message => exact BinaryOp.shape_eval hc hv ▸ rfl
  | _ =>
    have hsum := BinaryOp.rate_eq_add hc hv (Dense.shape_zero x.shape) (Dense.shape_zero y.shape)
    rw [hdy (by simp), hsum, BinaryOp.rateLeft_zero hc hv, BinaryOp.rateRight_zero hc hv]
    exact Dense.zero_add_zero _

/-- A value that no symbol reaches does not change. -/
theorem Expr.Evaluated.rate_eq_zero {env : Nat → Dense R} (denv : Nat → Dense R) {e : Expr R}
    (h : e.Evaluated env) (hs : e.seeded = false) :
    e.rate env denv = .zero (e.valueD env).shape := by
  induction e with
  | symbol i name s => cases hs
  | constant i m => rfl
  | unary i op x ih =>
    rw [rate, ih h.unary hs, h.valueD_unary, UnaryOp.eval_zero, UnaryOp.shape_eval, UnaryOp.shape_eval,
      Dense.shape_zero]
  | binary i op x y ihx ihy =>
    obtain ⟨hc, hv⟩ := h.eval_valueD
    -- the condition of an assertion may contain symbols
    have hsx : x.seeded = false := by
      cases op <;> simp only [seeded, Bool.or_eq_false_iff] at hs <;> simp [hs]
    have hsy (hop : ∀ message, op ≠ .assertion message) : y.seeded = false := by
      cases op <;> simp_all [seeded]
    rw [rate, ihx h.binary.1 hsx]
    exact BinaryOp.rate_zero hc hv fun hop => ihy h.binary.2 (hsy hop)

/-- A value does not change where no symbol does. -/
theorem Expr.Evaluated.rate_zero {env denv : Nat → Dense R} {e : Expr R} (h : e.Evaluated env)
    (hd : e.All fun x => x.isSymbol = true → denv x.id = .zero x.shape) :
    e.rate env denv = .zero (e.valueD env).shape := by
  induction e with
  | symbol i name s =>
    rw [h.shape_valueD]
    exact hd _ (.refl _) rfl
  | constant i m => rfl
  | unary i op x ih =>
    rw [rate, ih h.unary (all_unary.1 hd).2, h.valueD_unary, UnaryOp.eval_zero, UnaryOp.shape_eval,
      UnaryOp.shape_eval, Dense.shape_zero]
  | binary i op x y ihx ihy =>
    obtain ⟨hc, hv⟩ := h.eval_valueD
    obtain ⟨-, hx, hy⟩ := all_binary.1 hd
    rw [rate, ihx h.binary.1 hx]
    exact BinaryOp.rate_zero hc hv fun _ => ihy h.binary.2 hy

end Lyapunov
