/-
The nodes that the operators create. Each operator returns a node that it has created, except where it
has nothing to do: a matrix under its own shape, the block-diagonal matrix of a single block, and a
projection without factor are the matrix that was given.
-/
import Lyapunov.Equation.LowRank
import Lyapunov.Proofs.Graph.Creation

namespace Lyapunov

open Build

variable {α : Type} {S₀ S : Set (Expr α)} {x y z : Expr α}

namespace Expr

/-! ## Operators -/

theorem createsNode_sub (h₀ : S₀ ⊆ S) (hx : x ∈ S) (hy : y ∈ S) : CreatesNode S₀ S (x.sub y) :=
  creates_bind (createsNode_unary h₀ hy .neg) fun _ _ hS hneg =>
    createsNode_binary (h₀.trans hS) (hS hx) hneg.1 .add

theorem createsNode_mul3 (h₀ : S₀ ⊆ S) (hx : x ∈ S) (hy : y ∈ S) (hz : z ∈ S) :
    CreatesNode S₀ S (mul3 x y z) :=
  creates_bind (createsNode_binary h₀ hy hz .matmul) fun _ _ hS hyz =>
    createsNode_binary (h₀.trans hS) (hS hx) hyz.1 .matmul

theorem createsNode_congruence (h₀ : S₀ ⊆ S) (hx : x ∈ S) (hy : y ∈ S) : CreatesNode S₀ S (x.congruence y) :=
  creates_bind (createsNode_unary h₀ hx .transpose) fun _ _ hS ht =>
    createsNode_mul3 (h₀.trans hS) (hS hx) (hS hy) ht.1

theorem createsNode_symmetrize [One α] [Add α] [Div α] (h₀ : S₀ ⊆ S) (hx : x ∈ S) :
    CreatesNode S₀ S x.symmetrize := by
  refine creates_bind (createsNode_unary h₀ hx .transpose) fun S₁ t h₁ ht => ?_
  refine creates_bind (createsNode_binary (h₀.trans h₁) (h₁ hx) ht.1 .add) fun S₂ sum h₂ hsum => ?_
  exact createsNode_unary (h₀.trans (h₁.trans h₂)) hsum.1 _

theorem reshape_of_shape {s : Shape} (h : x.shape = s) : x.reshape s = pure x := if_pos h

theorem createsNode_reshape (h₀ : S₀ ⊆ S) (hx : x ∈ S) {s : Shape} (h : x.shape ≠ s) :
    CreatesNode S₀ S (x.reshape s) := by
  unfold reshape
  rw [if_neg h]
  exact createsNode_unary h₀ hx (.reshape s)

/-- Under any shape a new node stays a new node. -/
theorem createsNode_reshape_new (h₀ : S₀ ⊆ S) (hx : x ∈ S \ S₀) (s : Shape) :
    CreatesNode S₀ S (x.reshape s) := by
  by_cases h : x.shape = s
  · rw [reshape_of_shape h]
    exact creates_pure hx
  · exact createsNode_reshape h₀ hx.1 h

theorem creates_reshape (hx : x ∈ S) (s : Shape) : CreatesNode ∅ S (x.reshape s) :=
  createsNode_reshape_new (Set.empty_subset S) ⟨hx, Set.notMem_empty x⟩ s

end Expr

/-! ## Blocks -/

namespace Expr

variable [Zero α] [One α]

theorem createsNodes_horzsplitFrom (h₀ : S₀ ⊆ S) (hx : x ∈ S) (offset : Nat) (widths : List Nat) :
    CreatesNodes S₀ S (x.horzsplitFrom offset widths) := by
  induction widths generalizing S offset with
  | nil => exact creates_pure (by simp)
  | cons w widths ih =>
    refine creates_bind (createsNode_constant h₀ _) fun S₁ sel h₁ hsel => ?_
    refine creates_bind (createsNode_binary (h₀.trans h₁) (h₁ hx) hsel.1 .matmul) fun S₂ block h₂ hblock => ?_
    refine (ih (h₀.trans (h₁.trans h₂)) (h₂ (h₁ hx)) (offset + w)).map fun S₃ blocks h₃ hblocks => ?_
    exact List.forall_mem_cons.2 ⟨Set.sdiff_subset_sdiff_left h₃ hblock, hblocks⟩

theorem createsNodes_horzsplit (h₀ : S₀ ⊆ S) (hx : x ∈ S) (widths : List Nat) :
    CreatesNodes S₀ S (x.horzsplit widths) := createsNodes_horzsplitFrom h₀ hx 0 widths

theorem createsNodes_placeOnDiagonal (h₀ : S₀ ⊆ S) {blocks : List (Expr α)} (hblocks : ∀ b ∈ blocks, b ∈ S)
    (s : Shape) (row col : Nat) : CreatesNodes S₀ S (placeOnDiagonal s row col blocks) := by
  induction blocks generalizing S row col with
  | nil => exact creates_pure (by simp)
  | cons b blocks ih =>
    obtain ⟨hb, hblocks⟩ := List.forall_mem_cons.1 hblocks
    refine creates_bind (createsNode_constant h₀ _) fun S₁ left h₁ hleft => ?_
    refine creates_bind (createsNode_constant (h₀.trans h₁) _) fun S₂ right h₂ hright => ?_
    have h₁₂ : S ⊆ S₂ := h₁.trans h₂
    refine creates_bind (createsNode_mul3 (h₀.trans h₁₂) (h₂ hleft.1) (h₁₂ hb) hright.1)
      fun S₃ placed h₃ hplaced => ?_
    refine (ih (h₀.trans (h₁₂.trans h₃)) (fun c hc => h₃ (h₁₂ (hblocks c hc))) _ _).map
      fun S₄ rest h₄ hrest => ?_
    exact List.forall_mem_cons.2 ⟨Set.sdiff_subset_sdiff_left h₄ hplaced, hrest⟩

/-- The block-diagonal matrix is a new node, or the only block. -/
theorem createsNode_diagcat (h₀ : S₀ ⊆ S) {blocks : List (Expr α)} (hblocks : ∀ b ∈ blocks, b ∈ S)
    (hsingle : ∀ b, blocks = [b] → b ∉ S₀) : CreatesNode S₀ S (diagcat blocks) := by
  match blocks with
  | [] => exact createsNode_constant h₀ _
  | [b] => exact creates_pure ⟨hblocks b List.mem_cons_self, hsingle b rfl⟩
  | b :: c :: blocks =>
    refine creates_bind (createsNodes_placeOnDiagonal h₀ hblocks _ 0 0) fun S₁ placed h₁ hplaced => ?_
    cases placed with
    | nil => exact createsNode_constant (h₀.trans h₁) _
    | cons first rest =>
      obtain ⟨hfirst, hrest⟩ := List.forall_mem_cons.1 hplaced
      refine creates_foldlM (fun e he S₂ sum h₂ hsum => ?_) hfirst
      exact createsNode_binary (h₀.trans (h₁.trans h₂)) hsum.1 (h₂ (hrest e he).1) .add

end Expr

/-! ## The low-rank equation -/

namespace LowRankInputs

variable {inputs : LowRankInputs α}

/-- The expressions for the matrices that are given. -/
def operands (inputs : LowRankInputs α) : List (Expr α) :=
  [inputs.a, inputs.v] ++ inputs.c.toList ++ inputs.h.toList

theorem forall_operands {P : Expr α → Prop} : (∀ e ∈ inputs.operands, P e) ↔
    (P inputs.a ∧ P inputs.v) ∧ (∀ c ∈ inputs.c, P c) ∧ ∀ h ∈ inputs.h, P h := by
  simp [operands, or_imp, forall_and, and_assoc]

variable [Zero α] [One α] (h₀ : S₀ ⊆ S) (hinputs : ∀ e ∈ inputs.operands, e ∈ S)

include h₀ hinputs

theorem createsNodes_hSplit : CreatesNodes S₀ S inputs.hSplit := by
  unfold hSplit
  split
  · exact creates_pure (by simp)
  · rename_i h hh
    exact Expr.createsNodes_horzsplit h₀ ((forall_operands.1 hinputs).2.2 h hh) inputs.hBlocks

/-- The answer is a new node, or without factor the solution itself. -/
theorem createsNode_project {p : Expr α} (hp : p ∈ S) (hnew : inputs.h = none → p ∉ S₀) :
    CreatesNode S₀ S (inputs.project p) := by
  unfold project
  split
  · rename_i hh
    exact creates_pure ⟨hp, hnew hh⟩
  · refine creates_bind (createsNodes_hSplit h₀ hinputs) fun S₁ blocks h₁ hblocks => ?_
    refine creates_bind (Q := fun S' ps => ∀ p ∈ ps, p ∈ S' \ S₀) (createsNodes_mapM fun b hb S₂ h₂ => ?_)
      fun S₂ ps h₂ hps => ?_
    · refine creates_bind (createsNode_unary (h₀.trans (h₁.trans h₂)) (h₂ (hblocks b hb).1) .transpose)
        fun S₃ t h₃ ht => ?_
      exact Expr.createsNode_congruence (h₀.trans (h₁.trans (h₂.trans h₃))) ht.1 (h₃ (h₂ (h₁ hp)))
    · refine Expr.createsNode_diagcat (h₀.trans (h₁.trans h₂)) (fun e he => (hps e he).1) fun b hb => ?_
      exact (hps b (by simp [hb])).2

end LowRankInputs

end Lyapunov
