/-
Operators on expressions of one form. Computations that create nodes from nodes of one form, and number them
from numbers on that stand for each other, create as many nodes and have results of one form.
-/
import Lyapunov.Expr.Blocks
import Lyapunov.Proofs.Graph.Renaming

namespace Lyapunov

variable {α β γ δ γ' δ' : Type} {ρ : Renaming}

/-! ## Computations with corresponding results -/

namespace Build

/-- Run from numbers on that stand for each other, the computations create as many nodes, and have results
that correspond. -/
def Parallel (ρ : Renaming) (m : Build γ) (m' : Build δ) (Q : γ → δ → Prop) : Prop :=
  ∀ n n', (∀ k, ρ.number (n + k) (n' + k)) → Q (m.run n).1 (m'.run n').1 ∧
    ∃ k, (m.run n).2 = n + k ∧ (m'.run n').2 = n' + k

theorem parallel_pure {c : γ} {d : δ} {Q : γ → δ → Prop} (h : Q c d) : Parallel ρ (pure c) (pure d) Q :=
  fun _ _ _ => ⟨h, 0, rfl, rfl⟩

theorem parallel_bind {m : Build γ} {m' : Build δ} {f : γ → Build γ'} {f' : δ → Build δ'}
    {Q : γ → δ → Prop} {R : γ' → δ' → Prop} (hm : Parallel ρ m m' Q)
    (hf : ∀ c d, Q c d → Parallel ρ (f c) (f' d) R) : Parallel ρ (m >>= f) (m' >>= f') R := by
  intro n n' hnew
  obtain ⟨hq, k, hk, hk'⟩ := hm n n' hnew
  obtain ⟨hr, j, hj, hj'⟩ := hf _ _ hq (n + k) (n' + k) fun i => by
    rw [Nat.add_assoc, Nat.add_assoc]
    exact hnew (k + i)
  rw [← hk, ← hk'] at hr
  rw [← hk] at hj
  rw [← hk'] at hj'
  refine ⟨hr, k + j, hj.trans ?_, hj'.trans ?_⟩
  · rw [hk, Nat.add_assoc]
  · rw [hk', Nat.add_assoc]

theorem parallel_mapM {f : γ → Build γ'} {f' : δ → Build δ'} {R : γ → δ → Prop} {Q : γ' → δ' → Prop}
    {l : List γ} {l' : List δ} (hl : List.Forall₂ R l l') (h : ∀ x y, R x y → Parallel ρ (f x) (f' y) Q) :
    Parallel ρ (l.mapM f) (l'.mapM f') (List.Forall₂ Q) := by
  induction hl with
  | nil => exact parallel_pure .nil
  | cons hxy _ ih =>
    rw [List.mapM_cons, List.mapM_cons]
    refine parallel_bind (h _ _ hxy) fun c d hcd => ?_
    refine parallel_bind ih fun cs ds hcds => ?_
    exact parallel_pure (.cons hcd hcds)

theorem parallel_foldlM {f : γ' → γ → Build γ'} {f' : δ' → δ → Build δ'} {R : γ → δ → Prop}
    {Q : γ' → δ' → Prop} {l : List γ} {l' : List δ} (hl : List.Forall₂ R l l')
    (h : ∀ x y c d, R x y → Q c d → Parallel ρ (f c x) (f' d y) Q) {c : γ'} {d : δ'} (hcd : Q c d) :
    Parallel ρ (l.foldlM f c) (l'.foldlM f' d) Q := by
  induction hl generalizing c d with
  | nil => exact parallel_pure hcd
  | cons hxy _ ih =>
    rw [List.foldlM_cons, List.foldlM_cons]
    exact parallel_bind (h _ _ _ _ hxy hcd) fun _ _ => ih

end Build

open Build

section

variable {φ : α → β}

/-- Computations of nodes of one form. -/
abbrev Build.Alike (ρ : Renaming) (φ : α → β) (m : Build (Expr α)) (m' : Build (Expr β)) : Prop :=
  Parallel ρ m m' (Expr.Alike ρ φ)

/-- Computations of nodes that may be absent, with nodes of one form or none. -/
abbrev Build.AlikeOption (ρ : Renaming) (φ : α → β) (m : Build (Option (Expr α)))
    (m' : Build (Option (Expr β))) : Prop :=
  Parallel ρ m m' (Option.Rel (Expr.Alike ρ φ))

/-! ## Nodes -/

theorem alike_fresh {k : Nat → Expr α} {k' : Nat → Expr β}
    (h : ∀ i j, ρ.number i j → Expr.Alike ρ φ (k i) (k' j)) :
    Alike ρ φ (do return k (← Build.fresh)) (do return k' (← Build.fresh)) :=
  fun n n' hnew => ⟨h n n' (hnew 0), 1, rfl, rfl⟩

theorem alike_newSymbol {x y : String} (h : ρ.name x y) (s : Shape) :
    Alike ρ φ (Expr.newSymbol x s) (Expr.newSymbol y s) :=
  alike_fresh fun _ _ hij => .symbol hij h

theorem alike_newConstant (m : Dense α) : Alike ρ φ (Expr.newConstant m) (Expr.newConstant (m.map φ)) :=
  alike_fresh fun _ _ => .constant

/-- Over the same scalars the constants are equal. -/
theorem alike_newConstant_id (m : Dense α) : Alike ρ id (Expr.newConstant m) (Expr.newConstant m) := by
  have := alike_newConstant (ρ := ρ) (φ := id) m
  rwa [Dense.map_id] at this

theorem alike_zeros [Zero α] [Zero β] (h0 : φ 0 = 0) (s : Shape) :
    Alike ρ φ (Expr.zeros s) (Expr.zeros s) := by
  have := alike_newConstant (ρ := ρ) (φ := φ) (.zero s)
  rwa [Dense.map_zero h0] at this

section

variable {x y : Expr α} {x' y' : Expr β} (hx : Expr.Alike ρ φ x x') (hy : Expr.Alike ρ φ y y')

include hx

theorem alike_newUnary (op : UnaryOp α) : Alike ρ φ (Expr.newUnary op x) (Expr.newUnary (op.map φ) x') :=
  alike_fresh fun _ _ hij => .unary hij hx

theorem alike_reshape (s : Shape) : Alike ρ φ (x.reshape s) (x'.reshape s) := by
  unfold Expr.reshape
  rw [hx.shape]
  split
  · exact parallel_pure hx
  · exact alike_newUnary hx _

include hy

theorem alike_newBinary (op : BinaryOp) : Alike ρ φ (Expr.newBinary op x y) (Expr.newBinary op x' y') :=
  alike_fresh fun _ _ hij => .binary hij hx hy

theorem alike_mul3 {z : Expr α} {z' : Expr β} (hz : Expr.Alike ρ φ z z') :
    Alike ρ φ (Expr.mul3 x y z) (Expr.mul3 x' y' z') :=
  parallel_bind (alike_newBinary hy hz .matmul) fun _ _ hproduct => alike_newBinary hx hproduct .matmul

/-- The same for `x y x'`. -/
theorem alike_congruence : Alike ρ φ (x.congruence y) (x'.congruence y') :=
  parallel_bind (alike_newUnary hx .transpose) fun _ _ ht => alike_mul3 hx hy ht

theorem alike_sub : Alike ρ φ (x.sub y) (x'.sub y') :=
  parallel_bind (alike_newUnary hy .neg) fun _ _ hneg => alike_newBinary hx hneg .add

omit hy

theorem alike_vectorize : Alike ρ φ x.vectorize x'.vectorize := by
  unfold Expr.vectorize
  rw [hx.shape]
  exact alike_reshape hx _

end

end

theorem alike_symmetrize [One α] [Add α] [Div α] {x x' : Expr α} (hx : Expr.Alike ρ id x x') :
    Alike ρ id x.symmetrize x'.symmetrize := by
  refine parallel_bind (alike_newUnary hx .transpose) fun _ _ ht => ?_
  refine parallel_bind (alike_newBinary hx ht .add) fun _ _ hsum => ?_
  exact alike_newUnary hsum (.scale (1 / (1 + 1)))

/-! ## Blocks -/

section Blocks

variable [Zero α] [One α] {x x' : Expr α}

theorem parallel_horzsplitFrom (hx : Expr.Alike ρ id x x') (offset : Nat) (widths : List Nat) :
    Parallel ρ (x.horzsplitFrom offset widths) (x'.horzsplitFrom offset widths)
      (List.Forall₂ (Expr.Alike ρ id)) := by
  induction widths generalizing offset with
  | nil => exact parallel_pure .nil
  | cons w widths ih =>
    rw [Expr.horzsplitFrom, Expr.horzsplitFrom, hx.shape]
    refine parallel_bind (alike_newConstant_id _) fun _ _ hselector => ?_
    refine parallel_bind (alike_newBinary hx hselector .matmul) fun _ _ hblock => ?_
    refine parallel_bind (ih _) fun _ _ hrest => ?_
    exact parallel_pure (.cons hblock hrest)

theorem parallel_placeOnDiagonal {bs bs' : List (Expr α)} (hbs : List.Forall₂ (Expr.Alike ρ id) bs bs')
    (shape : Shape) (row col : Nat) : Parallel ρ (Expr.placeOnDiagonal shape row col bs)
      (Expr.placeOnDiagonal shape row col bs') (List.Forall₂ (Expr.Alike ρ id)) := by
  induction hbs generalizing row col with
  | nil => exact parallel_pure .nil
  | cons hb _ ih =>
    rw [Expr.placeOnDiagonal, Expr.placeOnDiagonal, hb.shape]
    refine parallel_bind (alike_newConstant_id _) fun _ _ hleft => ?_
    refine parallel_bind (alike_newConstant_id _) fun _ _ hright => ?_
    refine parallel_bind (alike_mul3 hleft hb hright) fun _ _ hplaced => ?_
    refine parallel_bind (ih _ _) fun _ _ hrest => ?_
    exact parallel_pure (.cons hplaced hrest)

theorem alike_diagcat {bs bs' : List (Expr α)} (hbs : List.Forall₂ (Expr.Alike ρ id) bs bs') :
    Alike ρ id (Expr.diagcat bs) (Expr.diagcat bs') := by
  have hshape (s : Shape) : bs'.foldl (fun s x => ⟨s.rows + x.shape.rows, s.cols + x.shape.cols⟩) s =
      bs.foldl (fun s x => ⟨s.rows + x.shape.rows, s.cols + x.shape.cols⟩) s := by
    induction hbs generalizing s with
    | nil => rfl
    | cons hb _ ih => rw [List.foldl_cons, List.foldl_cons, hb.shape, ih]
  cases hbs with
  | nil => exact alike_zeros rfl _
  | cons hb hrest =>
    cases hrest with
    | nil => exact parallel_pure hb
    | cons hc hrest =>
      unfold Expr.diagcat
      dsimp only
      rw [hshape]
      refine parallel_bind (parallel_placeOnDiagonal (.cons hb (.cons hc hrest)) _ 0 0) fun ps ps' hps => ?_
      cases hps with
      | nil => exact alike_zeros rfl _
      | cons hfirst hothers =>
        exact parallel_foldlM hothers (fun _ _ _ _ hxy hsum => alike_newBinary hsum hxy .add) hfirst

end Blocks

end Lyapunov
