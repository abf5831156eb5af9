/-
Ways of reading expressions as matrices: by their values, by their values over the dual numbers, or by
their shapes alone. All of them follow the operations, so that what an expression is read as can be
worked out once, while it is built, for every reading. Over scalars of which no law is assumed the entries
mean nothing, and expressions are read over the algebra with a single element.
-/
import Mathlib.Algebra.DualNumber
import Lyapunov.Proofs.Derivative.Adjoint
import Lyapunov.Proofs.Equation.Series
import Lyapunov.Proofs.Exact.Matrix

namespace Lyapunov

open Build Lyapunov.Dense Matrix

section

variable {α : Type} [Scalar α] {R : Type} [CommRing R]

/-- A map of scalars into an algebra over `K` that keeps the constants of which methods make use. -/
structure KeepsConstants (K : Type) [Field K] [Algebra K R] (φ : α → R) : Prop where
  zero : φ 0 = 0
  one : φ 1 = 1
  half : φ (1 / (1 + 1)) = algebraMap K R 2⁻¹

/-- A way of reading expressions as matrices over an algebra, where `φ` reads numbers. It follows the
operations other than those on blocks, systems and assertions. -/
structure Reading (K : Type) [Field K] [Algebra K R] (φ : α → R) (ρ : Expr α → Dense R → Prop) : Prop where
  keeps : KeepsConstants K φ
  shape : ∀ {e a}, ρ e a → e.shape = a.shape
  constant : ∀ (i : Nat) {c : Dense α} {a : Dense R}, c.shape = a.shape →
    (∀ j k, a.get j k = φ (c.get j k)) → ρ (.constant i c) a
  neg : ∀ (i : Nat) {x a}, ρ x a → ρ (.unary i .neg x) a.neg
  scale : ∀ (i : Nat) (c : α) {x a}, ρ x a → ρ (.unary i (.scale c) x) (a.scale (φ c))
  transpose : ∀ (i : Nat) {x a}, ρ x a → ρ (.unary i .transpose x) a.transpose
  reshape : ∀ (i : Nat) (s : Shape) {x a}, ρ x a → a.shape.size = s.size →
    ρ (.unary i (.reshape s) x) (a.reshape s)
  add : ∀ (i : Nat) {x y a b}, ρ x a → ρ y b → a.shape = b.shape → ρ (.binary i .add x y) (a.add b)
  matmul : ∀ (i : Nat) {x y a b}, ρ x a → ρ y b → a.cols = b.rows →
    ρ (.binary i .matmul x y) (a.mul b)

end

/-- The expression is read as some matrix. -/
def Readable {K R : Type} (ρ : Expr K → Dense R → Prop) (e : Expr K) : Prop := ∃ a, ρ e a

/-- The expression is a node of the graph `S` and is read as `a`. -/
structure Reads {K R : Type} (ρ : Expr K → Dense R → Prop) (a : Dense R) (S : Set (Expr K))
    (e : Expr K) : Prop where
  mem : e ∈ S
  reads : ρ e a

namespace Reads

variable {K R : Type} {ρ : Expr K → Dense R → Prop} {S S' : Set (Expr K)} {a b c : Dense R} {x y : Expr K}

theorem mono (hx : Reads ρ a S x) (hS : S ⊆ S') : Reads ρ a S' x := ⟨hS hx.mem, hx.reads⟩

theorem grows_unary {op : UnaryOp K} (hx : Reads ρ a S x) (hnode : ∀ i, ρ (.unary i op x) b) :
    Grows (Readable ρ) S (Expr.newUnary op x) (Reads ρ b) :=
  ((grows_newUnary hx.mem fun i => ⟨b, hnode i⟩).and (returns_newUnary hnode)).imp
    fun _ _ _ he => ⟨he.1.1, he.2⟩

theorem grows_binary {op : BinaryOp} (hx : Reads ρ a S x) (hy : Reads ρ b S y)
    (hnode : ∀ i, ρ (.binary i op x y) c) : Grows (Readable ρ) S (Expr.newBinary op x y) (Reads ρ c) :=
  ((grows_newBinary hx.mem hy.mem fun i => ⟨c, hnode i⟩).and (returns_newBinary hnode)).imp
    fun _ _ _ he => ⟨he.1.1, he.2⟩

end Reads

namespace Reading

variable {α : Type} [Scalar α] {K : Type} [Field K] {R : Type} [CommRing R] [Algebra K R] {φ : α → R}
  {ρ : Expr α → Dense R → Prop} (h : Reading K φ ρ) {S : Set (Expr α)} {a : Dense R} {x y : Expr α}

include h

/-! ## Operators -/

theorem grows_constant {c : Dense α} (hs : c.shape = a.shape) (hc : ∀ j k, a.get j k = φ (c.get j k)) :
    Grows (Readable ρ) S (Expr.newConstant c) (Reads ρ a) := by
  have hnode (i : Nat) : ρ (.constant i c) a := h.constant i hs hc
  exact ((grows_newConstant fun i => ⟨a, hnode i⟩).and (returns_newConstant hnode)).imp
    fun _ _ _ he => ⟨he.1.1, he.2⟩

theorem grows_sum {b : Dense R} (hx : Reads ρ a S x) (hy : Reads ρ b S y) (hs : a.shape = b.shape) :
    Grows (Readable ρ) S (x.add y) (Reads ρ (a.add b)) :=
  hx.grows_binary hy fun i => h.add i hx.reads hy.reads hs

theorem grows_difference {b : Dense R} (hx : Reads ρ a S x) (hy : Reads ρ b S y) (hs : a.shape = b.shape) :
    Grows (Readable ρ) S (x.sub y) (Reads ρ (a.add b.neg)) := by
  refine grows_bind (hy.grows_unary fun i => h.neg i hy.reads) fun S₁ z h₁ hz => ?_
  exact h.grows_sum (hx.mono h₁) hz hs

theorem grows_product {b : Dense R} (hx : Reads ρ a S x) (hy : Reads ρ b S y) (hs : a.cols = b.rows) :
    Grows (Readable ρ) S (x.matmul y) (Reads ρ (a.mul b)) :=
  hx.grows_binary hy fun i => h.matmul i hx.reads hy.reads hs

theorem grows_reshape {s : Shape} (hx : Reads ρ a S x) (hs : a.shape.size = s.size) :
    Grows (Readable ρ) S (x.reshape s) (Reads ρ (a.reshape s)) := by
  unfold Expr.reshape
  split
  · rename_i hshape
    refine grows_pure ?_
    rwa [← hshape, h.shape hx.reads, reshape_shape]
  · exact hx.grows_unary fun i => h.reshape i s hx.reads hs

variable {l m n : Nat}

theorem grows_zeros (m n : Nat) :
    Grows (Readable ρ) S (Expr.zeros ⟨m, n⟩) (Reads ρ (ofMatrix (0 : Matrix (Fin m) (Fin n) R))) := by
  rw [← zero_eq_ofMatrix]
  exact h.grows_constant rfl fun j k => by rw [get_zero, get_zero, h.keeps.zero]

theorem grows_scale {X : Matrix (Fin m) (Fin n) R} (c : α) (hx : Reads ρ (ofMatrix X) S x) :
    Grows (Readable ρ) S (x.scale c) (Reads ρ (ofMatrix (φ c • X))) := by
  rw [← scale_ofMatrix]
  exact hx.grows_unary fun i => h.scale i c hx.reads

theorem grows_transpose {X : Matrix (Fin m) (Fin n) R} (hx : Reads ρ (ofMatrix X) S x) :
    Grows (Readable ρ) S x.transpose (Reads ρ (ofMatrix Xᵀ)) := by
  rw [← transpose_ofMatrix]
  exact hx.grows_unary fun i => h.transpose i hx.reads

theorem grows_add {X Y : Matrix (Fin m) (Fin n) R} (hx : Reads ρ (ofMatrix X) S x)
    (hy : Reads ρ (ofMatrix Y) S y) : Grows (Readable ρ) S (x.add y) (Reads ρ (ofMatrix (X + Y))) := by
  rw [← add_ofMatrix]
  exact h.grows_sum hx hy rfl

theorem grows_matmul {X : Matrix (Fin l) (Fin m) R} {Y : Matrix (Fin m) (Fin n) R}
    (hx : Reads ρ (ofMatrix X) S x) (hy : Reads ρ (ofMatrix Y) S y) :
    Grows (Readable ρ) S (x.matmul y) (Reads ρ (ofMatrix (X * Y))) := by
  rw [← mul_ofMatrix]
  exact h.grows_product hx hy rfl

theorem grows_mul3 {p : Nat} {z : Expr α} {X : Matrix (Fin l) (Fin m) R} {Y : Matrix (Fin m) (Fin n) R}
    {Z : Matrix (Fin n) (Fin p) R} (hx : Reads ρ (ofMatrix X) S x) (hy : Reads ρ (ofMatrix Y) S y)
    (hz : Reads ρ (ofMatrix Z) S z) :
    Grows (Readable ρ) S (Expr.mul3 x y z) (Reads ρ (ofMatrix (X * Y * Z))) := by
  rw [Matrix.mul_assoc]
  refine grows_bind (h.grows_matmul hy hz) fun S₁ yz hS hyz => ?_
  exact h.grows_matmul (hx.mono hS) hyz

theorem grows_congruence {C : Matrix (Fin m) (Fin n) R} {X : Matrix (Fin n) (Fin n) R}
    (hc : Reads ρ (ofMatrix C) S x) (hx : Reads ρ (ofMatrix X) S y) :
    Grows (Readable ρ) S (x.congruence y) (Reads ρ (ofMatrix (C * X * Cᵀ))) := by
  refine grows_bind (h.grows_transpose hc) fun S₁ ct hS hct => ?_
  exact h.grows_mul3 (hc.mono hS) (hx.mono hS) hct

theorem grows_symmetrize {V : Matrix (Fin n) (Fin n) R} (hv : Reads ρ (ofMatrix V) S x) :
    Grows (Readable ρ) S x.symmetrize (Reads ρ (ofMatrix (symmetricPart K V))) := by
  have hhalf : symmetricPart K V = φ (1 / (1 + 1)) • (V + Vᵀ) := by
    rw [symmetricPart, h.keeps.half, algebraMap_smul]
  rw [hhalf]
  refine grows_bind (h.grows_transpose hv) fun S₁ vt hS hvt => ?_
  refine grows_bind (h.grows_add (hv.mono hS) hvt) fun S₂ sum hS₂ hsum => ?_
  exact h.grows_scale _ hsum

end Reading

variable {K : Type} [ExactScalar K] {R : Type} [CommRing R] [Algebra K R]

/-- Exact scalars stand for themselves. -/
theorem keepsConstants_algebraMap : KeepsConstants K (algebraMap K R) where
  zero := map_zero _
  one := map_one _
  half := by rw [one_add_one_eq_two, one_div]

/-! ## Values -/

theorem Dense.eq_of_get_algebraMap {a c : Dense K} (hs : c.shape = a.shape)
    (h : ∀ j k, a.get j k = algebraMap K K (c.get j k)) : c = a :=
  ext_shape hs fun j k => (h j k).symm

/-- Expressions are read as their values. -/
theorem Expr.reading_computes (env : Nat → Dense K) : Reading K (algebraMap K K) (Expr.Computes env) where
  keeps := keepsConstants_algebraMap
  shape h := h.shape
  constant _ _ _ hs h := ⟨congrArg Except.ok (eq_of_get_algebraMap hs h), hs⟩
  neg i _ _ h := h.unary i .neg
  scale i c _ _ h := h.unary i (.scale c)
  transpose i _ _ h := h.unary i .transpose
  reshape i s _ _ h _ := h.unary i (.reshape s)
  add i _ _ _ _ hx hy hs := hx.binary hy (BinaryOp.check_add.2 hs) rfl i
  matmul i _ _ _ _ hx hy hs := hx.binary hy (BinaryOp.check_matmul.2 hs) rfl i

/-- The value of an expression over the dual numbers, of the shape that it is to have. -/
structure Expr.DualComputes (env : Nat → Dense (DualNumber K)) (e : Expr K) (v : Dense (DualNumber K)) :
    Prop where
  shape : e.shape = v.shape
  value : e.DualValue env v

/-- Expressions are read as their values over the dual numbers. -/
theorem Expr.reading_dualComputes (env : Nat → Dense (DualNumber K)) :
    Reading K (algebraMap K (DualNumber K)) (Expr.DualComputes env) where
  keeps := keepsConstants_algebraMap
  shape h := h.1
  constant i c a hs h := by
    have hdual : a = .dual c (.zero c.shape) :=
      eq_dual hs.symm rfl (fun j k _ _ => by rw [h]; rfl) fun j k _ _ => by rw [h, get_zero]; rfl
    exact ⟨hs, hdual ▸ .constant i c⟩
  neg i _ _ h := ⟨h.1, .neg i h.2⟩
  scale i c _ _ h := ⟨h.1, .scale i c h.2⟩
  transpose i _ _ h := ⟨congrArg Shape.transpose h.1, .transpose i h.2⟩
  reshape i s _ _ h _ := ⟨rfl, .reshape i s h.2⟩
  add i _ _ _ _ hx hy _ := ⟨hx.1, .add i hx.2 hy.2⟩
  matmul i x y a b hx hy _ := ⟨by rw [shape_binary, hx.1, hy.1]; rfl, .matmul i hx.2 hy.2⟩

/-- An operation on operands that have values, or fail with an error, has the value of the operation or
fails with the error. -/
theorem Expr.value_binary_or {env : Nat → Dense K} {err : Error} {x y : Expr K} {op : BinaryOp}
    {a b c : Dense K} (hx : x.value env = .ok a ∨ x.value env = .error err)
    (hy : y.value env = .ok b ∨ y.value env = .error err)
    (hc : op.eval a b = .ok c ∨ op.eval a b = .error err) (i : Nat) :
    (binary i op x y).value env = .ok c ∨ (binary i op x y).value env = .error err := by
  rw [value_binary]
  rcases hx with hx | hx
  · rcases hy with hy | hy
    · rw [hx, hy]
      exact hc
    · rw [hx, hy]
      exact .inr rfl
  · rw [hx]
    exact .inr rfl

theorem Expr.value_unary_or {env : Nat → Dense K} {err : Error} {x : Expr K} {a : Dense K}
    (hx : x.value env = .ok a ∨ x.value env = .error err) (i : Nat) (op : UnaryOp K) :
    (unary i op x).value env = .ok (op.eval a) ∨ (unary i op x).value env = .error err := by
  rw [value_unary]
  exact hx.imp (fun h => by rw [h]; rfl) fun h => by rw [h]; rfl

/-- The value of an expression, unless it fails with the error. -/
structure Expr.ComputesOr (env : Nat → Dense K) (err : Error) (e : Expr K) (a : Dense K) : Prop where
  shape : e.shape = a.shape
  value : e.value env = .ok a ∨ e.value env = .error err

/-- Expressions are read as their values where they have one, if all others fail with one error. -/
theorem Expr.reading_computesOr (env : Nat → Dense K) (err : Error) :
    Reading K (algebraMap K K) (Expr.ComputesOr env err) where
  keeps := keepsConstants_algebraMap
  shape h := h.1
  constant i c a hs h := ⟨hs, .inl (congrArg Except.ok (eq_of_get_algebraMap hs h))⟩
  neg i _ _ h := ⟨h.1, Expr.value_unary_or h.2 i .neg⟩
  scale i c _ _ h := ⟨h.1, Expr.value_unary_or h.2 i (.scale c)⟩
  transpose i _ _ h := ⟨congrArg Shape.transpose h.1, Expr.value_unary_or h.2 i .transpose⟩
  reshape i s _ _ h _ := ⟨rfl, Expr.value_unary_or h.2 i (.reshape s)⟩
  add i _ _ _ _ hx hy _ := ⟨hx.1, Expr.value_binary_or hx.2 hy.2 (.inl rfl) i⟩
  matmul i x y a b hx hy _ :=
    ⟨by rw [shape_binary, hx.1, hy.1]; rfl, Expr.value_binary_or hx.2 hy.2 (.inl rfl) i⟩

/-! ## Shapes -/

/-- What every node of a solver satisfies: its operands fit, it is a symbol only if it is one of `T`, and
no Kronecker product is empty. -/
structure Expr.Formed {α : Type} (T : Set (Expr α)) (e : Expr α) : Prop where
  check : e.checkOperands = .ok ()
  symbol : e.isSymbol = true → e ∈ T
  contractible : e.Contractible

theorem Expr.formed_of_isSymbol {α : Type} {T : Set (Expr α)} {e : Expr α} (h : e.isSymbol = true)
    (he : e ∈ T) : e.Formed T := by
  cases e with
  | symbol => exact ⟨rfl, fun _ => he, trivial⟩
  | _ => cases h

theorem Expr.formed_unary {α : Type} {T : Set (Expr α)} {op : UnaryOp α} {x : Expr α}
    (h : op.check x.shape = .ok ()) (i : Nat) : (unary i op x).Formed T :=
  ⟨h, fun h => (Bool.false_ne_true h).elim, trivial⟩

theorem Expr.formed_binary {α : Type} {T : Set (Expr α)} {op : BinaryOp} {x y : Expr α}
    (h : op.check x.shape y.shape = .ok ()) (hblocks : op.Contractible x.shape y.shape) (i : Nat) :
    (binary i op x y).Formed T :=
  ⟨h, fun h => (Bool.false_ne_true h).elim, hblocks⟩

/-- The shape of an expression with nodes that fit. -/
structure Expr.FormedAs {α : Type} (T : Set (Expr α)) (e : Expr α) (a : Dense α) : Prop where
  shape : e.shape = a.shape
  formed : e.Formed T

/-- Expressions are read by their shapes. -/
theorem Expr.reading_formedAs (T : Set (Expr K)) : Reading K (algebraMap K K) (Expr.FormedAs T) where
  keeps := keepsConstants_algebraMap
  shape h := h.1
  constant i c a hs _ := ⟨hs, rfl, fun h => (Bool.false_ne_true h).elim, trivial⟩
  neg i _ _ h := ⟨h.1, formed_unary rfl i⟩
  scale i c _ _ h := ⟨h.1, formed_unary rfl i⟩
  transpose i _ _ h := ⟨congrArg Shape.transpose h.1, formed_unary rfl i⟩
  reshape i s x a h hs := ⟨rfl, formed_unary (UnaryOp.check_reshape.2 (by rw [h.1, hs])) i⟩
  add i x y a b hx hy hs :=
    ⟨hx.1, formed_binary (BinaryOp.check_add.2 (by rw [hx.1, hy.1, hs])) (by simp [BinaryOp.Contractible]) i⟩
  matmul i x y a b hx hy hs := by
    refine ⟨by rw [shape_binary, hx.1, hy.1]; rfl, formed_binary (BinaryOp.check_matmul.2 ?_)
      (by simp [BinaryOp.Contractible]) i⟩
    rw [hx.1, hy.1]
    exact hs

end Lyapunov
