/-
Properties of expressions that follow from shapes. Nothing is assumed of the scalars: expressions are read
over the algebra with a single element, where matrices are their shapes, so that what methods build has
every property that the operations keep where operands fit.
-/
import Lyapunov.Proofs.Method.Kronecker
import Lyapunov.Proofs.Method.Smith

namespace Lyapunov

open Build Lyapunov.Dense

namespace Expr

variable {α : Type}

/-! ## Properties that the operations keep -/

/-- The operations of all methods keep the property where operands fit. -/
structure Kept (P : Expr α → Prop) : Prop where
  constant : ∀ (i : Nat) (c : Dense α), P (.constant i c)
  unary : ∀ (i : Nat) (op : UnaryOp α) {x}, P x → op.check x.shape = .ok () → P (.unary i op x)
  add : ∀ (i : Nat) {x y}, P x → P y → x.shape = y.shape → P (.binary i .add x y)
  matmul : ∀ (i : Nat) {x y}, P x → P y → x.shape.cols = y.shape.rows → P (.binary i .matmul x y)

/-- The operations that only the direct method makes use of keep the property, where `A` has `n` rows. -/
structure KeptBySystem (n : Nat) (P : Expr α → Prop) : Prop where
  kron : ∀ (i : Nat) {x}, P x → x.shape = .square n → P (.binary i .kron x x)
  solve : ∀ (i : Nat) {x y}, P x → P y → x.shape = .square (n * n) → y.shape = .vector (n * n) →
    P (.binary i .solve x y)

/-- The expression has the property, and the shape of the matrix. -/
structure ShapedWith (P : Expr α → Prop) (e : Expr α) (a : Dense Unit) : Prop where
  shape : e.shape = a.shape
  holds : P e

theorem readable_shapedWith {P : Expr α → Prop} {e : Expr α} : Readable (ShapedWith P) e ↔ P e :=
  ⟨fun ⟨_, h⟩ => h.holds, fun h => ⟨.zero e.shape, rfl, h⟩⟩

theorem KeptBySystem.solvesAs {P : Expr α → Prop} {n : Nat} (h : KeptBySystem n P)
    (A W X : Matrix (Fin n) (Fin n) Unit) : SolvesAs (ShapedWith P) A W X where
  kron i _ hx := ⟨by rw [shape_binary, hx.shape]; rfl, h.kron i hx.holds hx.shape⟩
  solve i _ _ hx hy :=
    ⟨by rw [shape_binary, hx.shape, hy.shape]; rfl, h.solve i hx.holds hy.holds hx.shape hy.shape⟩

variable [Scalar α]

/-- Expressions are read by their shapes, and have the property that is kept. -/
theorem Kept.reading {P : Expr α → Prop} (h : Kept P) : Reading ℚ (fun _ : α => ()) (ShapedWith P) where
  keeps := ⟨rfl, rfl, rfl⟩
  shape h := h.shape
  constant i c _ hs _ := ⟨hs, h.constant i c⟩
  neg i _ _ hx := ⟨hx.shape, h.unary i .neg hx.holds rfl⟩
  scale i c _ _ hx := ⟨hx.shape, h.unary i (.scale c) hx.holds rfl⟩
  transpose i _ _ hx := ⟨congrArg Shape.transpose hx.shape, h.unary i .transpose hx.holds rfl⟩
  reshape i s _ _ hx hs := ⟨rfl, h.unary i (.reshape s) hx.holds (UnaryOp.check_reshape.2 (hx.shape ▸ hs))⟩
  add i x y a b hx hy hs := ⟨hx.shape, h.add i hx.holds hy.holds (by rw [hx.shape, hy.shape, hs])⟩
  matmul i x y a b hx hy hs := by
    refine ⟨by rw [shape_binary, hx.shape, hy.shape]; rfl, h.matmul i hx.holds hy.holds ?_⟩
    rw [hx.shape, hy.shape]
    exact hs

/-- In every reading, what is read can be required to have the property. -/
theorem Kept.reading_and {K R : Type} [Field K] [CommRing R] [Algebra K R] {φ : α → R}
    {ρ : Expr α → Dense R → Prop} {P : Expr α → Prop} (hP : Kept P) (h : Reading K φ ρ) :
    Reading K φ fun e a => ρ e a ∧ P e where
  keeps := h.keeps
  shape he := h.shape he.1
  constant i c _ hs hc := ⟨h.constant i hs hc, hP.constant i c⟩
  neg i _ _ hx := ⟨h.neg i hx.1, hP.unary i .neg hx.2 rfl⟩
  scale i c _ _ hx := ⟨h.scale i c hx.1, hP.unary i (.scale c) hx.2 rfl⟩
  transpose i _ _ hx := ⟨h.transpose i hx.1, hP.unary i .transpose hx.2 rfl⟩
  reshape i s _ _ hx hs :=
    ⟨h.reshape i s hx.1 hs, hP.unary i (.reshape s) hx.2 (UnaryOp.check_reshape.2 (h.shape hx.1 ▸ hs))⟩
  add i _ _ _ _ hx hy hs :=
    ⟨h.add i hx.1 hy.1 hs, hP.add i hx.2 hy.2 (by rw [h.shape hx.1, h.shape hy.1, hs])⟩
  matmul i _ _ _ _ hx hy hs :=
    ⟨h.matmul i hx.1 hy.1 hs, hP.matmul i hx.2 hy.2 (by rw [h.shape hx.1, h.shape hy.1]; exact hs)⟩

/-! ## Values -/

/-- The expression has a value of its shape, or fails with one of the errors `E`. -/
def EndsIn (env : Nat → Dense α) (E : Error → Prop) (e : Expr α) : Prop :=
  (∃ v, e.Computes env v) ∨ ∃ err, E err ∧ e.value env = .error err

section

variable {env : Nat → Dense α} {E : Error → Prop} {x y : Expr α}

theorem EndsIn.binary {op : BinaryOp} (hx : x.EndsIn env E) (hy : y.EndsIn env E)
    (hc : op.check x.shape y.shape = .ok ())
    (hop : ∀ a b : Dense α, a.shape = x.shape → b.shape = y.shape →
      (∃ v, op.eval a b = .ok v) ∨ ∃ err, E err ∧ op.eval a b = .error err) (i : Nat) :
    (binary i op x y).EndsIn env E := by
  rcases hx with ⟨a, ha⟩ | ⟨err, herr, hx⟩
  · rcases hy with ⟨b, hb⟩ | ⟨err, herr, hy⟩
    · rcases hop a b ha.shape.symm hb.shape.symm with ⟨v, hv⟩ | ⟨err, herr, hv⟩
      · rw [ha.shape, hb.shape] at hc
        exact .inl ⟨v, ha.binary hb hc hv i⟩
      · exact .inr ⟨err, herr, by rw [value_binary, ha.value, hb.value]; exact hv⟩
    · exact .inr ⟨err, herr, by rw [value_binary, ha.value, hy]; rfl⟩
  · exact .inr ⟨err, herr, by rw [value_binary, hx]; rfl⟩

/-- Only systems fail. -/
theorem kept_endsIn (env : Nat → Dense α) (E : Error → Prop) : Kept (EndsIn env E) where
  constant _ c := .inl ⟨c, rfl, rfl⟩
  unary i op x hx _ := by
    rcases hx with ⟨_, hx⟩ | ⟨err, herr, hx⟩
    · exact .inl ⟨_, hx.unary i op⟩
    · exact .inr ⟨err, herr, by rw [value_unary, hx]; rfl⟩
  add i _ _ hx hy hs := EndsIn.binary hx hy (BinaryOp.check_add.2 hs) (fun _ _ _ _ => .inl ⟨_, rfl⟩) i
  matmul i _ _ hx hy hs := EndsIn.binary hx hy (BinaryOp.check_matmul.2 hs) (fun _ _ _ _ => .inl ⟨_, rfl⟩) i

/-- The error of a system for `n` rows of `A`. -/
def systemError (n : Nat) : Error := if n = 0 then .emptySystem else .singularMatrix (n * n)

theorem eval_solve {n : Nat} {m b : Dense α} (hm : m.shape = .square (n * n))
    (hb : b.shape = .vector (n * n)) :
    BinaryOp.solve.eval m b = .error (systemError n) ∨ n ≠ 0 ∧ ∃ v, BinaryOp.solve.eval m b = .ok v := by
  have hrows : m.rows = n * n := congrArg Shape.rows hm
  have hcols : b.cols = 1 := congrArg Shape.cols hb
  have hsolution : BinaryOp.solve.eval m b = solution m b := rfl
  rw [hsolution, solution, systemError, hrows, hcols, if_neg Nat.one_ne_zero]
  by_cases hn : n = 0
  · rw [if_pos hn, if_pos (by rw [hn])]
    exact .inl rfl
  rw [if_neg hn, if_neg (Nat.mul_ne_zero hn hn)]
  cases m.solve? b with
  | none => exact .inl rfl
  | some v => exact .inr ⟨hn, v, rfl⟩

theorem keptBySystem_endsIn (env : Nat → Dense α) {n : Nat} (hE : E (systemError n)) :
    KeptBySystem n (EndsIn env E) where
  kron i _ hx _ := EndsIn.binary hx hx rfl (fun _ _ _ _ => .inl ⟨_, rfl⟩) i
  solve i x y hx hy hxs hys := by
    refine EndsIn.binary hx hy (BinaryOp.check_solve.2 ?_) (fun m b hm hb => ?_) i
    · rw [hxs, hys]
      exact ⟨rfl, rfl⟩
    · rcases eval_solve (hm.trans hxs) (hb.trans hys) with h | ⟨-, h⟩
      · exact .inr ⟨_, hE, h⟩
      · exact .inl h

/-- A system without equations has no solution. -/
theorem value_solve_empty (hx : x.EndsIn env (· = systemError 0)) (hy : y.EndsIn env (· = systemError 0))
    (hxs : x.shape = .square 0) (hys : y.shape = .vector 0) (i : Nat) :
    (binary i .solve x y).value env = .error .emptySystem := by
  rw [value_binary]
  rcases hx with ⟨a, ha⟩ | ⟨_, rfl, hx⟩
  · rcases hy with ⟨b, hb⟩ | ⟨_, rfl, hy⟩
    · rw [ha.value, hb.value]
      exact (eval_solve (n := 0) (ha.shape.symm.trans hxs) (hb.shape.symm.trans hys)).resolve_right
        fun h => h.1 rfl
    · rw [ha.value, hy]
      rfl
  · rw [hx]
    rfl

end

/-! ## Blocks -/

omit [Scalar α] in
theorem kept_contractible : Kept (Contractible : Expr α → Prop) where
  constant _ _ := trivial
  unary _ _ _ _ _ := trivial
  add _ _ _ _ _ _ := by simp [Contractible, BinaryOp.Contractible]
  matmul _ _ _ _ _ _ := by simp [Contractible, BinaryOp.Contractible]

omit [Scalar α] in
theorem keptBySystem_contractible {n : Nat} (hn : 0 < n) :
    KeptBySystem n (Contractible : Expr α → Prop) where
  kron i _ _ hs := contractible_kron hn hs i
  solve _ _ _ _ _ _ _ := by simp [Contractible, BinaryOp.Contractible]

/-! ## Checks -/

omit [Scalar α] in
theorem fits_of_not_isSymbol {T : Set (Expr α)} {e : Expr α} (hcheck : e.checkOperands = .ok ())
    (he : e.isSymbol = false) : Fits True (fun _ => True) T e :=
  ⟨fun _ => ⟨hcheck, trivial⟩, fun h => by rw [he] at h; cases h⟩

omit [Scalar α] in
theorem kept_fits (T : Set (Expr α)) : Kept (Fits True (fun _ => True) T) where
  constant _ _ := fits_of_not_isSymbol rfl rfl
  unary _ _ _ _ h := fits_of_not_isSymbol h rfl
  add _ _ _ _ _ hs := fits_of_not_isSymbol (BinaryOp.check_add.2 hs) rfl
  matmul _ _ _ _ _ hs := fits_of_not_isSymbol (BinaryOp.check_matmul.2 hs) rfl

omit [Scalar α] in
theorem keptBySystem_fits (T : Set (Expr α)) (n : Nat) : KeptBySystem n (Fits True (fun _ => True) T) where
  kron _ _ _ _ := fits_of_not_isSymbol rfl rfl
  solve _ _ _ _ _ hx hy := fits_of_not_isSymbol (BinaryOp.check_solve.2 (by rw [hx, hy]; exact ⟨rfl, rfl⟩)) rfl

end Expr

end Lyapunov
