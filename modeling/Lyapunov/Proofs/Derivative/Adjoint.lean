/-
The adjoint of one node. What a node contributes to the adjoint of an operand has the shape of the
operand (`BinaryOp.grows_adjoint`), and its inner product with a rate of change of the operand is that of
the adjoint of the node with the rate of change which follows for the node
(`BinaryOp.returns_adjoint`). A contribution with a node whose operands do not fit has no value; none is
needed where the operand does not depend on a symbol.
-/
import Lyapunov.Proofs.Derivative.Rate
import Lyapunov.Proofs.Derivative.Nodes
import Lyapunov.Proofs.Exact.Inner
import Lyapunov.Func.Reverse

namespace Lyapunov

open Build

variable {α : Type}

/-! ## Shapes made of blocks -/

/-- A matrix of the shape has an entry. -/
def Shape.HasEntries (s : Shape) : Prop := s.size ≠ 0

theorem Shape.hasEntries_iff {s : Shape} : s.HasEntries ↔ 0 < s.rows ∧ 0 < s.cols := by
  rw [HasEntries, size, Nat.mul_ne_zero_iff, Nat.pos_iff_ne_zero, Nat.pos_iff_ne_zero]

theorem Shape.HasEntries.transpose {s : Shape} (h : s.HasEntries) : s.transpose.HasEntries := by
  rw [hasEntries_iff] at h ⊢
  exact h.symm

namespace BinaryOp

variable {s t : Shape}

theorem blocksOf_iff :
    blocksOf s t = true ↔ t.HasEntries ∧ s.rows % t.rows = 0 ∧ s.cols % t.cols = 0 := by
  simp only [blocksOf, Bool.and_eq_true, bne_iff_ne, beq_iff_eq, and_assoc, Shape.HasEntries]

/-- Contracting a Kronecker product with its second factor leaves the shape of the first. -/
theorem contractLeft_kron (ht : t.HasEntries) :
    kronContractLeft.check (kron.shape s t) t = .ok () ∧
      kronContractLeft.shape (kron.shape s t) t = s := by
  obtain ⟨hr, hc⟩ := Shape.hasEntries_iff.1 ht
  refine ⟨Shape.require_eq_ok.2 (blocksOf_iff.2 ⟨ht, Nat.mul_mod_left _ _, Nat.mul_mod_left _ _⟩), ?_⟩
  simp only [shape, Nat.mul_div_cancel _ hr, Nat.mul_div_cancel _ hc]

/-- Contracting a Kronecker product with its first factor leaves the shape of the second. -/
theorem contractRight_kron (hs : s.HasEntries) :
    kronContractRight.check (kron.shape s t) s = .ok () ∧
      kronContractRight.shape (kron.shape s t) s = t := by
  obtain ⟨hr, hc⟩ := Shape.hasEntries_iff.1 hs
  refine ⟨Shape.require_eq_ok.2 (blocksOf_iff.2 ⟨hs, Nat.mul_mod_right _ _, Nat.mul_mod_right _ _⟩), ?_⟩
  simp only [shape, Nat.mul_div_cancel_left _ hr, Nat.mul_div_cancel_left _ hc]

/-- What a contraction leaves makes up the whole again, on either side. -/
theorem kron_contract (hc : kronContractLeft.check s t = .ok ()) :
    kron.shape (kronContractLeft.shape s t) t = s ∧ kron.shape t (kronContractLeft.shape s t) = s := by
  obtain ⟨-, hrows, hcols⟩ := blocksOf_iff.1 (Shape.require_eq_ok.1 hc)
  have hr := Nat.dvd_of_mod_eq_zero hrows
  have hc := Nat.dvd_of_mod_eq_zero hcols
  simp only [shape, Nat.div_mul_cancel hr, Nat.div_mul_cancel hc, Nat.mul_div_cancel' hr,
    Nat.mul_div_cancel' hc, and_self]

/-- A Kronecker product or contraction has no empty operand and no empty result. -/
def Contractible (op : BinaryOp) (s t : Shape) : Prop :=
  op = kron ∨ op = kronContractLeft ∨ op = kronContractRight →
    s.HasEntries ∧ t.HasEntries ∧ (op.shape s t).HasEntries

end BinaryOp

/-- The node is no Kronecker product or contraction with an empty operand or result. -/
def Expr.Contractible : Expr α → Prop
  | .binary _ op x y => op.Contractible x.shape y.shape
  | _ => True

theorem Expr.contractible_of_hasEntries {e : Expr α} (h : e.shape.HasEntries)
    (hops : ∀ x ∈ e.operands, x.shape.HasEntries) : e.Contractible := by
  cases e with
  | binary i op x y =>
    exact fun _ => ⟨hops x (by simp [operands]), hops y (by simp [operands]), h⟩
  | _ => trivial

theorem Expr.contractible_of_isSymbol {e : Expr α} (h : e.isSymbol = true) : e.Contractible := by
  cases e with
  | symbol => trivial
  | _ => cases h

/-! ## The graph -/

section Graph

variable {F : Prop} {R : Shape → Prop} {S T G : Set (Expr α)} {s t : Shape} {x y result bar : Expr α}

theorem UnaryOp.grows_adjoint {op : UnaryOp α} (hbar : Node F S (op.shape x.shape) bar)
    (hc : F → op.check x.shape = .ok ()) (hR : F → R x.shape) :
    Grows (Fits F R T) S (op.adjoint x bar) (Node F · x.shape) := by
  cases op with
  | neg => exact grows_unary .neg hbar fun hF => ⟨rfl, hR hF⟩
  | scale c => exact grows_unary (.scale c) hbar fun hF => ⟨rfl, hR hF⟩
  | transpose => exact grows_unary .transpose hbar fun hF => ⟨rfl, hR hF⟩
  | reshape t =>
    refine grows_reshape hbar fun hF => ⟨?_, hR hF⟩
    exact (beq_iff_eq.1 (Shape.require_eq_ok.1 (hc hF))).symm

/-- A new node whose shape is known. -/
theorem Build.grows_binary_shape (op : BinaryOp) {r : Shape} (hx : Node F S s x) (hy : Node F S t y)
    (hc : F → op.check s t = .ok () ∧ op.shape s t = r ∧ R r) :
    Grows (Fits F R T) S (Expr.newBinary op x y) (Node F · r) := by
  refine (grows_binary op hx hy fun hF => ?_).imp fun S' e _ he => he.cast fun hF => (hc hF).2.1
  obtain ⟨h, hr, hR⟩ := hc hF
  exact ⟨h, hr ▸ hR⟩

/-- Two new nodes, one for each operand. -/
theorem Build.grows_binary_pair (op op' : BinaryOp) {s' t' r r' : Shape} {x' y' : Expr α}
    (hx : Node F S s x) (hy : Node F S t y) (hx' : Node F S s' x') (hy' : Node F S t' y')
    (hc : F → op.check s t = .ok () ∧ op.shape s t = r ∧ R r)
    (hc' : F → op'.check s' t' = .ok () ∧ op'.shape s' t' = r' ∧ R r') :
    Grows (Fits F R T) S (do return (← Expr.newBinary op x y, some (← Expr.newBinary op' x' y')))
      fun S' p => Node F S' r p.1 ∧ OptNode F S' r' p.2 := by
  refine grows_bind (grows_binary_shape op hx hy hc) fun S₁ e h₁ he => ?_
  refine grows_bind (grows_binary_shape op' (hx'.mono h₁) (hy'.mono h₁) hc') fun S₂ e' h₂ he' => ?_
  exact grows_pure ⟨he.mono h₂, optNode_some he'⟩

namespace BinaryOp

theorem grows_adjoint_matmul (htr : ∀ u, R u → R u.transpose) (hx : Node F S s x) (hy : Node F S t y)
    (hbar : Node F S (matmul.shape s t) bar) (hc : F → matmul.check s t = .ok ())
    (hs : F → R s) (ht : F → R t) :
    Grows (Fits F R T) S (matmul.adjoint result x y bar)
      fun S' p => Node F S' s p.1 ∧ OptNode F S' t p.2 := by
  have hst (hF : F) : s.cols = t.rows := beq_iff_eq.1 (Shape.require_eq_ok.1 (hc hF))
  refine grows_bind (grows_unary .transpose hy fun hF => ⟨rfl, htr _ (ht hF)⟩) fun S₁ yt h₁ hyt => ?_
  refine grows_bind (grows_binary_shape .matmul (r := s) (hbar.mono h₁) hyt fun hF => ?_)
    fun S₂ xBar h₂ hxBar => ?_
  · refine ⟨Shape.require_eq_ok.2 (beq_self_eq_true t.cols), ?_, hs hF⟩
    show (⟨s.rows, t.rows⟩ : Shape) = s
    rw [← hst hF]
  refine grows_bind (grows_unary .transpose (hx.mono (h₁.trans h₂)) fun hF => ⟨rfl, htr _ (hs hF)⟩)
    fun S₃ xt h₃ hxt => ?_
  refine grows_bind (grows_binary_shape .matmul (r := t) hxt (hbar.mono ((h₁.trans h₂).trans h₃))
    fun hF => ?_) fun S₄ yBar h₄ hyBar => ?_
  · refine ⟨Shape.require_eq_ok.2 (beq_self_eq_true s.rows), ?_, ht hF⟩
    show (⟨s.cols, t.cols⟩ : Shape) = t
    rw [hst hF]
  exact grows_pure ⟨hxBar.mono (h₃.trans h₄), optNode_some hyBar⟩

/-- The system of the adjoint has the transposed matrix. -/
theorem grows_adjoint_solve (htr : ∀ u, R u → R u.transpose) (hx : Node F S s x)
    (hr : Node F S (solve.shape s t) result) (hbar : Node F S (solve.shape s t) bar)
    (hc : F → solve.check s t = .ok ()) (hR : F → R s ∧ R t ∧ R (solve.shape s t)) :
    Grows (Fits F R T) S (solve.adjoint result x y bar)
      fun S' p => Node F S' s p.1 ∧ OptNode F S' t p.2 := by
  have hst (hF : F) : s.rows = s.cols ∧ s.rows = t.rows := check_solve.1 (hc hF)
  refine grows_bind (grows_unary .transpose hx fun hF => ⟨rfl, htr _ (hR hF).1⟩) fun S₁ xt h₁ hxt => ?_
  refine grows_bind (grows_binary_shape .solve (r := t) hxt (hbar.mono h₁) fun hF => ?_)
    fun S₂ yBar h₂ hyBar => ?_
  · refine ⟨check_solve.2 ⟨(hst hF).1.symm, rfl⟩, ?_, (hR hF).2.1⟩
    show (⟨s.rows, t.cols⟩ : Shape) = t
    rw [(hst hF).2]
  refine grows_bind (grows_unary .transpose (hr.mono (h₁.trans h₂))
    fun hF => ⟨rfl, htr _ (hR hF).2.2⟩) fun S₃ rt h₃ hrt => ?_
  refine grows_bind (grows_binary_shape .matmul (r := s) (hyBar.mono h₃) hrt fun hF => ?_)
    fun S₄ z h₄ hz => ?_
  · refine ⟨Shape.require_eq_ok.2 (beq_self_eq_true t.cols), ?_, (hR hF).1⟩
    show (⟨t.rows, s.cols⟩ : Shape) = s
    rw [← (hst hF).2]
  refine grows_bind (grows_unary .neg hz fun hF => ⟨rfl, (hR hF).1⟩) fun S₅ xBar h₅ hxBar => ?_
  exact grows_pure ⟨hxBar, optNode_some (hyBar.mono ((h₃.trans h₄).trans h₅))⟩

theorem grows_adjoint {op : BinaryOp} (htr : ∀ u, R u → R u.transpose) (hx : Node F S s x)
    (hy : Node F S t y) (hr : Node F S (op.shape s t) result) (hbar : Node F S (op.shape s t) bar)
    (hc : F → op.check s t = .ok ()) (hR : F → R s ∧ R t ∧ R (op.shape s t))
    (hblocks : F → op.Contractible s t) :
    Grows (Fits F R T) S (op.adjoint result x y bar)
      fun S' p => Node F S' s p.1 ∧ OptNode F S' t p.2 := by
  cases op with
  | add =>
    refine grows_pure ⟨hbar, optNode_some (hbar.cast fun hF => ?_)⟩
    exact beq_iff_eq.1 (Shape.require_eq_ok.1 (hc hF))
  | matmul => exact grows_adjoint_matmul htr hx hy hbar hc (fun hF => (hR hF).1) fun hF => (hR hF).2.1
  | kron =>
    refine grows_binary_pair .kronContractLeft .kronContractRight hbar hy hbar hx (fun hF => ?_) fun hF => ?_
    · obtain ⟨h, hs⟩ := contractLeft_kron (s := s) (hblocks hF (by simp)).2.1
      exact ⟨h, hs, (hR hF).1⟩
    · obtain ⟨h, ht⟩ := contractRight_kron (t := t) (hblocks hF (by simp)).1
      exact ⟨h, ht, (hR hF).2.1⟩
  | kronContractLeft =>
    refine grows_binary_pair .kron .kronContractRight hbar hy hx hbar (fun hF => ?_) fun hF => ?_
    · exact ⟨rfl, (kron_contract (hc hF)).1, (hR hF).1⟩
    · obtain ⟨h, ht⟩ := contractRight_kron (t := t) (hblocks hF (by simp)).2.2
      rw [(kron_contract (hc hF)).1] at h ht
      exact ⟨h, ht, (hR hF).2.1⟩
  | kronContractRight =>
    refine grows_binary_pair .kron .kronContractLeft hy hbar hx hbar (fun hF => ?_) fun hF => ?_
    · exact ⟨rfl, (kron_contract (hc hF)).2, (hR hF).1⟩
    · obtain ⟨h, ht⟩ := contractLeft_kron (s := t) (hblocks hF (by simp)).2.2
      have hwhole : kron.shape t (kronContractRight.shape s t) = s := (kron_contract (hc hF)).2
      rw [hwhole] at h ht
      exact ⟨h, ht, (hR hF).2.1⟩
  | solve => exact grows_adjoint_solve htr hx hr hbar hc hR
  | assertion message => exact grows_pure ⟨hbar, optNode_none⟩

end BinaryOp

end Graph

/-! ## The values -/

section Value

variable {R : Type} [LocalScalar R] {env : Nat → Dense R} {x y result bar : Expr R} {a b v : Dense R}
  {s t : Shape} {rate : Dense R → Dense R}

/-- A contribution to the adjoint of an operand of shape `s`, from the adjoint `bar` of a node of shape
`t` that changes at the rate `rate d` when the operand changes at the rate `d`. -/
structure Contributes (env : Nat → Dense R) (bar : Expr R) (t s : Shape) (rate : Dense R → Dense R)
    (c : Expr R) : Prop where
  below : Expr.Below bar c
  value : ∀ w, bar.Computes env w → w.shape = t → c.Checked →
    ∃ z, c.Computes env z ∧ z.shape = s ∧ ∀ d, d.shape = s → z.inner d = w.inner (rate d)

/-- The contribution has a value of the shape of the operand, where its operands fit. -/
theorem Contributes.sound {c : Expr R} (h : Contributes env bar t s rate c)
    (hbar : bar.Checked → ∃ w, bar.Computes env w ∧ w.shape = t) (hc : c.Checked) :
    ∃ z, c.Computes env z ∧ z.shape = s := by
  obtain ⟨w, hw, hws⟩ := hbar fun x hx => hc x (hx.trans h.below)
  obtain ⟨z, hz, hzs, -⟩ := h.value w hw hws hc
  exact ⟨z, hz, hzs⟩

/-- The contribution pairs with a rate of change of the operand as the adjoint of the node does with that
of the node; also where its operands do not fit, if the operand does not change. -/
theorem Contributes.inner_eq {c : Expr R} {d : Dense R} (h : Contributes env bar t s rate c)
    (hbar : bar.Checked → ∃ w, bar.Computes env w ∧ w.shape = t) (hd : d.shape = s)
    (hzero : rate (.zero s) = .zero t) (hc : c.Checked ∨ d = .zero s) :
    (c.valueD env).inner d = (bar.valueD env).inner (rate d) := by
  rcases hc with hc | rfl
  · obtain ⟨w, hw, hws⟩ := hbar fun x hx => hc x (hx.trans h.below)
    obtain ⟨z, hz, -, hinner⟩ := h.value w hw hws hc
    rw [Expr.valueD_eq env hz.value, Expr.valueD_eq env hw.value]
    exact hinner d hd
  · rw [hzero, Dense.inner_zero, Dense.inner_zero]

/-- An operation on the adjoint contributes, if it does so for every value. -/
theorem Contributes.unary {op : UnaryOp R}
    (h : ∀ w, w.shape = t → (op.eval w).shape = s ∧
      ∀ d, d.shape = s → (op.eval w).inner d = w.inner (rate d)) (i : Nat) :
    Contributes env bar t s rate (.unary i op bar) where
  below := .operand (List.mem_singleton_self _) (.refl bar)
  value w hw hs _ := ⟨op.eval w, hw.unary i op, h w hs⟩

/-- An operation on the adjoint and another operand contributes, if it does so wherever the values
fit. -/
theorem Contributes.binary_left {op : BinaryOp} (hy : y.Computes env b)
    (h : ∀ w, w.shape = t → op.check w.shape b.shape = .ok () →
      ∃ z, op.eval w b = .ok z ∧ z.shape = s ∧ ∀ d, d.shape = s → z.inner d = w.inner (rate d)) (i : Nat) :
    Contributes env bar t s rate (.binary i op bar y) where
  below := .operand (by simp [Expr.operands]) (.refl bar)
  value w hw hs hchecked := by
    have hc := hw.check hy hchecked
    obtain ⟨z, hz, hshape, hinner⟩ := h w hs hc
    exact ⟨z, hw.binary hy hc hz i, hshape, hinner⟩

theorem Contributes.binary_right {op : BinaryOp} (hx : x.Computes env a)
    (h : ∀ w, w.shape = t → op.check a.shape w.shape = .ok () →
      ∃ z, op.eval a w = .ok z ∧ z.shape = s ∧ ∀ d, d.shape = s → z.inner d = w.inner (rate d)) (i : Nat) :
    Contributes env bar t s rate (.binary i op x bar) where
  below := .operand (by simp [Expr.operands]) (.refl bar)
  value w hw hs hchecked := by
    have hc := hx.check hw hchecked
    obtain ⟨z, hz, hshape, hinner⟩ := h w hs hc
    exact ⟨z, hx.binary hw hc hz i, hshape, hinner⟩

theorem UnaryOp.returns_adjoint (env : Nat → Dense R) {op : UnaryOp R} (hc : op.check x.shape = .ok ()) :
    (op.adjoint x bar).Returns (Contributes env bar (op.shape x.shape) x.shape op.eval) := by
  cases op with
  | neg => exact returns_newUnary <| .unary fun w hs => ⟨hs, fun d _ => (Dense.inner_neg w d).symm⟩
  | scale c => exact returns_newUnary <| .unary fun w hs => ⟨hs, fun d _ => (Dense.inner_scale c w d).symm⟩
  | transpose =>
    exact returns_newUnary <| .unary fun w hs =>
      ⟨congrArg Shape.transpose hs, fun d _ => (Dense.inner_transpose w d).symm⟩
  | reshape u =>
    have hsize : x.shape.size = u.size := beq_iff_eq.1 (Shape.require_eq_ok.1 hc)
    have hinner (w : Dense R) (hs : w.shape = u) (d : Dense R) (hd : d.shape = x.shape) :
        (w.reshape x.shape).inner d = w.inner (d.reshape u) := by
      rw [Dense.inner_reshape hs (hd ▸ hsize), hd]
    show (bar.reshape x.shape).Returns _
    unfold Expr.reshape
    split
    · -- the adjoint has the shape of the operand already, and is handed down as it is
      rename_i h
      refine returns_pure ⟨.refl _, fun w hw hs _ => ⟨w, hw, hw.shape.symm.trans h, fun d hd => ?_⟩⟩
      have := hinner w hs d hd
      rwa [← h, hw.shape, Dense.reshape_shape] at this
    · exact returns_newUnary <| .unary fun w hs => ⟨rfl, hinner w hs⟩

/-- Solving the transposed system is the adjoint of solving the system. -/
theorem inner_solution {w : Dense R} (hm : a.rows = a.cols) (hb : a.rows = b.rows)
    (h : solution a b = .ok v) (hw : w.shape = ⟨a.cols, b.cols⟩) :
    ∃ z, solution a.transpose w = .ok z ∧ z.shape = b.shape ∧
      ∀ d, d.shape = b.shape → z.inner d = w.inner (solutionD a d) := by
  obtain ⟨z, hz⟩ := Dense.exists_solution_transpose hm ⟨v, h⟩ (Dense.cols_of_shape hw)
  obtain ⟨hs, hmul⟩ := Dense.solution_eq_ok (m := a.transpose) hm.symm (Dense.rows_of_shape hw).symm hz
  refine ⟨z, hz, ?_, fun d hd => ?_⟩
  · rw [hs, Dense.cols_transpose, hb, Dense.cols_of_shape hw]
    rfl
  · obtain ⟨-, hshape, hmul'⟩ := solutionD_spec hm hb h hd
    have hrows : z.rows = a.rows := Dense.rows_of_shape hs
    have := Dense.inner_mul_right (b := z) (x := a) hrows (Dense.rows_of_shape hshape)
    rwa [hmul, hmul'] at this

namespace Contributes

variable (i : Nat)

open BinaryOp

/-! ### Products of matrices -/

theorem mul_left (hc : matmul.check a.shape b.shape = .ok ()) (hy : y.Computes env b.transpose) :
    Contributes env bar (matmul.shape a.shape b.shape) a.shape (·.mul b) (.binary i .matmul bar y) := by
  have hcols : a.cols = b.rows := beq_iff_eq.1 (Shape.require_eq_ok.1 hc)
  refine .binary_left hy (fun w hw _ => ⟨_, rfl, ?_, fun d _ => ?_⟩) i
  · show (⟨w.rows, b.rows⟩ : Shape) = a.shape
    rw [Dense.rows_of_shape hw, ← hcols]
    rfl
  · exact (Dense.inner_mul_left (Dense.cols_of_shape hw)).symm

theorem mul_right (hc : matmul.check a.shape b.shape = .ok ()) (hx : x.Computes env a.transpose) :
    Contributes env bar (matmul.shape a.shape b.shape) b.shape a.mul (.binary i .matmul x bar) := by
  have hcols : a.cols = b.rows := beq_iff_eq.1 (Shape.require_eq_ok.1 hc)
  refine .binary_right hx (fun w hw _ => ⟨_, rfl, ?_, fun d hd => ?_⟩) i
  · show (⟨a.cols, w.cols⟩ : Shape) = b.shape
    rw [Dense.cols_of_shape hw, hcols]
    rfl
  · exact (Dense.inner_mul_right (Dense.rows_of_shape hw) ((Dense.rows_eq hd).trans hcols.symm)).symm

/-! ### Kronecker products -/

theorem kron_left (s : Shape) (hy : y.Computes env b) :
    Contributes env bar (kron.shape s b.shape) s (·.kron b) (.binary i .kronContractLeft bar y) := by
  refine .binary_left hy (fun w hw hcheck => ⟨_, rfl, ?_, fun d hd => ?_⟩) i
  · have hb : b.shape.HasEntries := (blocksOf_iff.1 (Shape.require_eq_ok.1 hcheck)).1
    show kronContractLeft.shape w.shape b.shape = s
    rw [hw, (contractLeft_kron hb).2]
  · refine (Dense.inner_kron_left ?_).symm
    rw [hw, ← hd]
    rfl

theorem kron_right (s : Shape) (hx : x.Computes env a) :
    Contributes env bar (kron.shape a.shape s) s a.kron (.binary i .kronContractRight bar x) := by
  refine .binary_left hx (fun w hw hcheck => ⟨_, rfl, ?_, fun d hd => ?_⟩) i
  · have ha : a.shape.HasEntries := (blocksOf_iff.1 (Shape.require_eq_ok.1 hcheck)).1
    show kronContractRight.shape w.shape a.shape = s
    rw [hw, (contractRight_kron ha).2]
  · refine (Dense.inner_kron_right ?_).symm
    rw [hw, ← hd]
    rfl

/-! ### Contractions -/

theorem contractLeft_left (hc : kronContractLeft.check a.shape b.shape = .ok ())
    (hy : y.Computes env b) :
    Contributes env bar (kronContractLeft.shape a.shape b.shape) a.shape (·.kronContractLeft b)
      (.binary i .kron bar y) := by
  refine .binary_left hy (fun w hw _ => ?_) i
  have hwhole : a.shape = kron.shape w.shape b.shape := by rw [hw, (kron_contract hc).1]
  refine ⟨_, rfl, hwhole.symm, fun d hd => ?_⟩
  refine (Dense.inner_kronContractLeft_left (hd.trans hwhole) ?_).symm
  show kronContractLeft.shape d.shape b.shape = w.shape
  rw [hd, hw]

theorem contractLeft_right (hc : kronContractLeft.check a.shape b.shape = .ok ())
    (hx : x.Computes env a) :
    Contributes env bar (kronContractLeft.shape a.shape b.shape) b.shape a.kronContractLeft
      (.binary i .kronContractRight x bar) := by
  refine .binary_right hx (fun w hw hcheck => ?_) i
  have hentries : w.shape.HasEntries := (blocksOf_iff.1 (Shape.require_eq_ok.1 hcheck)).1
  have hwhole : a.shape = kron.shape w.shape b.shape := by rw [hw, (kron_contract hc).1]
  refine ⟨_, rfl, ?_, fun d hd => ?_⟩
  · show kronContractRight.shape a.shape w.shape = b.shape
    rw [hwhole, (contractRight_kron hentries).2]
  · refine (Dense.inner_kronContractLeft_right ?_ ?_).symm
    · rw [hwhole, Dense.rows_eq hd, Dense.cols_eq hd]
      rfl
    · show kronContractLeft.shape a.shape d.shape = w.shape
      rw [hd, hw]

theorem contractRight_left (hc : kronContractRight.check a.shape b.shape = .ok ())
    (hy : y.Computes env b) :
    Contributes env bar (kronContractRight.shape a.shape b.shape) a.shape (·.kronContractRight b)
      (.binary i .kron y bar) := by
  refine .binary_right hy (fun w hw _ => ?_) i
  have hwhole : a.shape = kron.shape b.shape w.shape := by rw [hw]; exact (kron_contract hc).2.symm
  refine ⟨_, rfl, hwhole.symm, fun d hd => ?_⟩
  refine (Dense.inner_kronContractRight_left (hd.trans hwhole) ?_).symm
  show kronContractRight.shape d.shape b.shape = w.shape
  rw [hd, hw]

theorem contractRight_right (hc : kronContractRight.check a.shape b.shape = .ok ())
    (hx : x.Computes env a) :
    Contributes env bar (kronContractRight.shape a.shape b.shape) b.shape a.kronContractRight
      (.binary i .kronContractLeft x bar) := by
  refine .binary_right hx (fun w hw hcheck => ?_) i
  have hentries : w.shape.HasEntries := (blocksOf_iff.1 (Shape.require_eq_ok.1 hcheck)).1
  have hwhole : a.shape = kron.shape b.shape w.shape := by rw [hw]; exact (kron_contract hc).2.symm
  refine ⟨_, rfl, ?_, fun d hd => ?_⟩
  · show kronContractLeft.shape a.shape w.shape = b.shape
    rw [hwhole, (contractLeft_kron hentries).2]
  · refine (Dense.inner_kronContractRight_right ?_ ?_).symm
    · rw [hwhole, Dense.rows_eq hd, Dense.cols_eq hd]
      rfl
    · show kronContractRight.shape a.shape d.shape = w.shape
      rw [hd, hw]

/-! ### Systems -/

theorem solve_right (hc : solve.check a.shape b.shape = .ok ()) (hv : solve.eval a b = .ok v)
    (hx : x.Computes env a.transpose) :
    Contributes env bar (solve.shape a.shape b.shape) b.shape (solutionD a) (.binary i .solve x bar) := by
  obtain ⟨hm, hb⟩ := check_solve.1 hc
  refine .binary_right hx (fun w hw _ => ?_) i
  exact inner_solution hm hb hv hw

/-- The matrix of a system gets the contribution to the right-hand side, times the transposed
solution. -/
theorem solve_left {c : Expr R} (hc : solve.check a.shape b.shape = .ok ())
    (hv : solve.eval a b = .ok v) (h : Contributes env bar t b.shape (solutionD a) c)
    (hr : result.Computes env v.transpose) (j : Nat) :
    Contributes env bar t a.shape (fun d => solutionD a (d.mul v).neg)
      (.unary j .neg (.binary i .matmul c result)) where
  below := by
    have hproduct : Expr.Below c (.binary i .matmul c result) := .operand (by simp [Expr.operands]) (.refl c)
    exact h.below.trans (.operand (List.mem_singleton_self _) hproduct)
  value w hw hs hchecked := by
    have hproduct := (Expr.all_unary.1 hchecked).2
    obtain ⟨z, hz, hzs, hinner⟩ := h.value w hw hs (Expr.all_binary.1 hproduct).2.1
    have hvs := shape_eval hc hv
    have hcols : z.cols = v.cols := (Dense.cols_eq hzs).trans (Dense.cols_of_shape hvs).symm
    refine ⟨_, (hz.binary hr (hz.check hr hproduct) rfl i).unary j .neg, ?_, fun d hd => ?_⟩
    · show (⟨z.rows, v.rows⟩ : Shape) = a.shape
      rw [Dense.rows_eq hzs, Dense.rows_of_shape hvs]
      exact congrArg (fun n => (⟨n, a.cols⟩ : Shape)) (check_solve.1 hc).2.symm
    · calc (z.mul v.transpose).neg.inner d
          = (z.mul v.transpose).inner d.neg := (Dense.inner_neg _ d).symm
        _ = z.inner (d.neg.mul v) := (Dense.inner_mul_left hcols).symm
        _ = z.inner (d.mul v).neg := by rw [Dense.neg_mul']
        _ = w.inner (solutionD a (d.mul v).neg) := hinner _ (shape_neg_mul hc hv hd)

end Contributes

/-- What a node contributes to the adjoints of its operands; only the second operand of an assertion
gets nothing. -/
theorem BinaryOp.returns_adjoint {op : BinaryOp} (hx : x.Computes env a) (hy : y.Computes env b)
    (hr : result.Computes env v) (hc : op.check a.shape b.shape = .ok ()) (hv : op.eval a b = .ok v) :
    (op.adjoint result x y bar).Returns fun p =>
      Contributes env bar v.shape a.shape (op.rateLeft a b v) p.1 ∧
        match p.2 with
        | some c => Contributes env bar v.shape b.shape (op.rateRight a) c
        | none => ∃ message, op = .assertion message := by
  rw [BinaryOp.shape_eval hc hv]
  have hself : Contributes env bar a.shape a.shape (fun d => d) bar :=
    ⟨.refl bar, fun w hw hs _ => ⟨w, hw, hs, fun _ _ => rfl⟩⟩
  cases op with
  | add =>
    have hs : a.shape = b.shape := beq_iff_eq.1 (Shape.require_eq_ok.1 hc)
    exact returns_pure ⟨hself, (hs ▸ hself : Contributes env bar a.shape b.shape (fun d => d) bar)⟩
  | matmul =>
    refine returns_bind (returns_unary .transpose hy) fun yt hyt => ?_
    refine returns_bind (returns_newBinary (Contributes.mul_left · hc hyt)) fun xBar hxBar => ?_
    refine returns_bind (returns_unary .transpose hx) fun xt hxt => ?_
    refine returns_bind (returns_newBinary (Contributes.mul_right · hc hxt)) fun yBar hyBar => ?_
    exact returns_pure ⟨hxBar, hyBar⟩
  | kron =>
    refine returns_bind (returns_newBinary (Contributes.kron_left · a.shape hy)) fun xBar hxBar => ?_
    refine returns_bind (returns_newBinary (Contributes.kron_right · b.shape hx)) fun yBar hyBar => ?_
    exact returns_pure ⟨hxBar, hyBar⟩
  | kronContractLeft =>
    refine returns_bind (returns_newBinary (Contributes.contractLeft_left · hc hy)) fun xBar hxBar => ?_
    refine returns_bind (returns_newBinary (Contributes.contractLeft_right · hc hx)) fun yBar hyBar => ?_
    exact returns_pure ⟨hxBar, hyBar⟩
  | kronContractRight =>
    refine returns_bind (returns_newBinary (Contributes.contractRight_left · hc hy)) fun xBar hxBar => ?_
    refine returns_bind (returns_newBinary (Contributes.contractRight_right · hc hx)) fun yBar hyBar => ?_
    exact returns_pure ⟨hxBar, hyBar⟩
  | solve =>
    refine returns_bind (returns_unary .transpose hx) fun xt hxt => ?_
    refine returns_bind (returns_newBinary (Contributes.solve_right · hc hv hxt)) fun yBar hyBar => ?_
    refine returns_bind (returns_unary .transpose hr) fun rt hrt => ?_
    -- the contribution is a node over another new one, which does not contribute by itself
    refine returns_bind (Q := fun z => ∃ i, z = .binary i .matmul yBar rt)
      (returns_newBinary fun i => ⟨i, rfl⟩) ?_
    rintro z ⟨i, rfl⟩
    refine returns_bind (returns_newUnary (Contributes.solve_left i hc hv hyBar hrt)) fun xBar hxBar => ?_
    exact returns_pure ⟨hxBar, hyBar⟩
  | assertion message => exact returns_pure ⟨hself, message, rfl⟩

end Value

end Lyapunov
