/-
The nodes that the methods create. The solution that a method builds is a node that it has created, also
where the sum of a series has a single term or the answer is a single block.
-/
import Lyapunov.Method.Registry
import Lyapunov.Proofs.Expr.Creation

namespace Lyapunov

open Build Lyapunov.Expr

variable {α : Type} [Scalar α] {S₀ S : Set (Expr α)} {a v p : Expr α} {inputs : LowRankInputs α}

/-! ## The direct method -/

namespace Kronecker

theorem createsNode_solve (h₀ : S₀ ⊆ S) (ha : a ∈ S) (hv : v ∈ S) : CreatesNode S₀ S (solve a v) := by
  refine creates_bind (createsNode_constant h₀ _) fun S₁ identity h₁ hidentity => ?_
  refine creates_bind (createsNode_binary (h₀.trans h₁) (h₁ ha) (h₁ ha) .kron) fun S₂ aa h₂ haa => ?_
  have h₁₂ : S ⊆ S₂ := h₁.trans h₂
  refine creates_bind (createsNode_sub (h₀.trans h₁₂) (h₂ hidentity.1) haa.1) fun S₃ system h₃ hsystem => ?_
  have h₁₃ : S ⊆ S₃ := h₁₂.trans h₃
  refine creates_bind (creates_reshape (h₁₃ hv) _) fun S₄ column h₄ hcolumn => ?_
  have h₁₄ : S ⊆ S₄ := h₁₃.trans h₄
  refine creates_bind (createsNode_binary (h₀.trans h₁₄) (h₄ hsystem.1) hcolumn.1 .solve) fun S₅ x h₅ hx => ?_
  exact createsNode_reshape_new (h₀.trans (h₁₄.trans h₅)) hx _

theorem createsNode_dle (h₀ : S₀ ⊆ S) (ha : a ∈ S) (hv : v ∈ S) : CreatesNode S₀ S (dle a v) :=
  creates_bind (createsNode_symmetrize h₀ hv) fun _ _ hS hw => createsNode_solve (h₀.trans hS) (hS ha) hw.1

theorem createsNode_lowRank (h₀ : S₀ ⊆ S) (hinputs : ∀ e ∈ inputs.operands, e ∈ S) :
    CreatesNode S₀ S (lowRank inputs) := by
  obtain ⟨⟨ha, hv⟩, hc, -⟩ := LowRankInputs.forall_operands.1 hinputs
  refine creates_bind (createsNode_symmetrize h₀ hv) fun S₁ w h₁ hw => ?_
  have hrest {S₂ : Set (Expr α)} {rhs : Expr α} (h₂ : S₁ ⊆ S₂) (hrhs : rhs ∈ S₂ \ S₀) :
      CreatesNode S₀ S₂ (do inputs.project (← solve inputs.a rhs)) := by
    have h₁₂ : S ⊆ S₂ := h₁.trans h₂
    refine creates_bind (createsNode_solve (h₀.trans h₁₂) (h₁₂ ha) hrhs.1) fun S₃ p h₃ hp => ?_
    exact LowRankInputs.createsNode_project (h₀.trans (h₁₂.trans h₃))
      (fun e he => h₃ (h₁₂ (hinputs e he))) hp.1 fun _ => hp.2
  obtain ⟨a, v, c, h, widths⟩ := inputs
  cases c with
  | none => exact creates_bind (creates_pure hw) fun S₂ rhs h₂ hrhs => hrest h₂ hrhs
  | some c =>
    exact creates_bind (createsNode_congruence (h₀.trans h₁) (h₁ (hc c rfl)) hw.1) fun S₂ rhs h₂ hrhs =>
      hrest h₂ hrhs

end Kronecker

/-! ## Smith's method -/

namespace Smith

omit [Scalar α] in
theorem createsNode_iterate (h₀ : S₀ ⊆ S) (doubling : Bool) (k : Nat) (ha : a ∈ S) (hv : v ∈ S)
    (hp : p ∈ S \ S₀) : CreatesNode S₀ S (iterate doubling k a v p) := by
  induction k generalizing S a v p with
  | zero => exact creates_pure hp
  | succ k ih =>
    unfold iterate
    refine creates_bind (createsNode_congruence h₀ ha hp.1) fun S₁ q h₁ hq => ?_
    refine creates_bind (createsNode_binary (h₀.trans h₁) hq.1 (h₁ hv) .add) fun S₂ p' h₂ hp' => ?_
    have h₁₂ : S ⊆ S₂ := h₁.trans h₂
    split
    · refine creates_bind (createsNode_congruence (h₀.trans h₁₂) (h₁₂ ha) (h₁₂ hv)) fun S₃ w h₃ hw => ?_
      have h₁₃ : S ⊆ S₃ := h₁₂.trans h₃
      refine creates_bind (createsNode_binary (h₀.trans h₁₃) hw.1 (h₁₃ hv) .add) fun S₄ v' h₄ hv' => ?_
      have h₁₄ : S ⊆ S₄ := h₁₃.trans h₄
      refine creates_bind (createsNode_binary (h₀.trans h₁₄) (h₁₄ ha) (h₁₄ ha) .matmul) fun S₅ a' h₅ ha' => ?_
      exact ih (h₀.trans (h₁₄.trans h₅)) ha'.1 (h₅ hv'.1)
        (Set.sdiff_subset_sdiff_left (h₃.trans (h₄.trans h₅)) hp')
    · exact ih (h₀.trans h₁₂) (h₁₂ ha) (h₁₂ hv) hp'

theorem createsNode_dle (h₀ : S₀ ⊆ S) (ha : a ∈ S) (hv : v ∈ S) (settings : Settings) :
    CreatesNode S₀ S (dle a v settings) :=
  creates_bind (createsNode_symmetrize h₀ hv) fun _ _ hS hw =>
    createsNode_iterate (h₀.trans hS) _ _ (hS ha) hw.1 hw

omit [Scalar α] in
theorem creates_addTerm (h₀ : S₀ ⊆ S) {sum : Option (Expr α)} {term : Expr α} (hsum : NewOption S₀ S sum)
    (hterm : term ∈ S \ S₀) : Creates S (addTerm sum term) (NewOption S₀) := by
  cases sum with
  | none => exact creates_pure (newOption_some hterm)
  | some s =>
    exact (createsNode_binary h₀ (hsum s rfl).1 hterm.1 .add).map fun _ _ _ he => newOption_some he

/-- Whatever exists besides `S`, the terms of a series for any factor are new. -/
def TermsNew (S₀ S : Set (Expr α)) (terms : Option (Expr α) → Build (List (Expr α))) : Prop :=
  ∀ S' factor, S ⊆ S' → (∀ d ∈ factor, d ∈ S') → CreatesNodes S₀ S' (terms factor)

omit [Scalar α] in
/-- The sums stay absent or new. -/
theorem creates_sumSeries (h₀ : S₀ ⊆ S) (ha : a ∈ S) {terms : Option (Expr α) → Build (List (Expr α))}
    (hterms : TermsNew S₀ S terms) (k : Nat) {factor : Option (Expr α)} (hfactor : ∀ d ∈ factor, d ∈ S)
    (sums : List (Option (Expr α))) (hsums : ∀ o ∈ sums, NewOption S₀ S o) :
    Creates S (sumSeries a terms k factor sums) fun S' os => ∀ o ∈ os, NewOption S₀ S' o := by
  induction k generalizing S factor sums with
  | zero => exact creates_pure hsums
  | succ k ih =>
    unfold sumSeries
    refine creates_bind (hterms S factor subset_rfl hfactor) fun S₁ ts h₁ hts => ?_
    refine creates_bind (creates_mapM (R := NewOption S₀) (fun _ _ _ hS ho => ho.mono hS)
      fun st hst S₂ h₂ => ?_) fun S₂ sums' h₂ hsums' => ?_
    · obtain ⟨hs, ht⟩ := List.of_mem_zip hst
      exact creates_addTerm (h₀.trans (h₁.trans h₂)) ((hsums _ hs).mono (h₁.trans h₂))
        (Set.sdiff_subset_sdiff_left h₂ (hts _ ht))
    · have h₁₂ : S ⊆ S₂ := h₁.trans h₂
      have hnext {S₃ : Set (Expr α)} {d : Expr α} (h₃ : S₂ ⊆ S₃) (hd : d ∈ S₃) :
          Creates S₃ (sumSeries a terms k (some d) sums') fun S' os => ∀ o ∈ os, NewOption S₀ S' o := by
        have h₁₃ : S ⊆ S₃ := h₁₂.trans h₃
        exact ih (h₀.trans h₁₃) (h₁₃ ha) (fun S' f hS => hterms S' f (h₁₃.trans hS)) (by simpa using hd) _
          fun o ho => (hsums' o ho).mono h₃
      cases factor with
      | none => exact creates_bind (creates_pure (h₁₂ ha)) fun S₃ d h₃ hd => hnext h₃ hd
      | some d =>
        exact creates_bind (createsNode_binary (h₀.trans h₁₂) (h₁₂ ha) (h₁₂ (hfactor d rfl)) .matmul)
          fun S₃ d' h₃ hd' => hnext h₃ hd'.1

omit [Scalar α] in
theorem termsNew_fullTerm (h₀ : S₀ ⊆ S) (hv : v ∈ S \ S₀) : TermsNew S₀ S (fullTerm v) := by
  intro S' factor hS hfactor
  cases factor with
  | none => exact creates_pure (by simpa using Set.sdiff_subset_sdiff_left hS hv)
  | some d =>
    refine (createsNode_congruence (h₀.trans hS) (hfactor d rfl) (hS hv.1)).map fun S'' e _ he => ?_
    simpa using he

omit [Scalar α] in
theorem termsNew_blockTerms (h₀ : S₀ ⊆ S) (hv : v ∈ S) {blocks : List (Expr α)}
    (hblocks : ∀ b ∈ blocks, b ∈ S) : TermsNew S₀ S (blockTerms v blocks) := by
  intro S' factor hS hfactor
  refine createsNodes_mapM fun h hh S₁ h₁ => ?_
  have h₀₁ : S₀ ⊆ S₁ := h₀.trans (hS.trans h₁)
  have ht := createsNode_unary h₀₁ (h₁ (hS (hblocks h hh))) .transpose
  have hterm {S₂ : Set (Expr α)} {w : Expr α} (h₂ : S₁ ⊆ S₂) (hw : w ∈ S₂) :
      CreatesNode S₀ S₂ (w.congruence v) :=
    createsNode_congruence (h₀₁.trans h₂) hw (h₂ (h₁ (hS hv)))
  cases factor with
  | none => exact creates_bind ht fun S₂ w h₂ hw => hterm h₂ hw.1
  | some d =>
    refine creates_bind ht fun S₂ t h₂ ht => ?_
    exact creates_bind (createsNode_binary (h₀₁.trans h₂) ht.1 (h₂ (h₁ (hfactor d rfl))) .matmul)
      fun S₃ w h₃ hw => hterm (h₂.trans h₃) hw.1

/-- A sum that is still absent is a new matrix of zeros. -/
theorem createsNode_answer (h₀ : S₀ ⊆ S) (sum : Option (Expr α)) (s : Shape) :
    NewOption S₀ S sum → CreatesNode S₀ S (match sum with
      | some y => pure y
      | none => zeros s) := by
  intro hsum
  cases sum with
  | none => exact createsNode_constant h₀ _
  | some y => exact creates_pure (hsum y rfl)

theorem createsNode_lowRank (h₀ : S₀ ⊆ S) (hinputs : ∀ e ∈ inputs.operands, e ∈ S) (k : Nat) :
    CreatesNode S₀ S (lowRank inputs k) := by
  obtain ⟨⟨ha, hv⟩, hc, -⟩ := LowRankInputs.forall_operands.1 hinputs
  refine creates_bind (createsNode_symmetrize h₀ hv) fun S₁ w h₁ hw => ?_
  refine creates_bind (LowRankInputs.createsNodes_hSplit (h₀.trans h₁) fun e he => h₁ (hinputs e he))
    fun S₂ blocks h₂ hblocks => ?_
  have h₁₂ : S ⊆ S₂ := h₁.trans h₂
  have h₀₂ : S₀ ⊆ S₂ := h₀.trans h₁₂
  have ha₂ := h₁₂ ha
  have hc₂ : ∀ c ∈ inputs.c, c ∈ S₂ := fun c hmem => h₁₂ (hc c hmem)
  obtain ⟨a, v, c, h, widths⟩ := inputs
  cases h with
  | none =>
    have hterms := termsNew_fullTerm h₀₂ (Set.sdiff_subset_sdiff_left h₂ hw)
    refine creates_bind (creates_sumSeries h₀₂ ha₂ hterms k hc₂ [none] (by simpa using newOption_none)) fun S₃ sums h₃ hsums => ?_
    have hsum : NewOption S₀ S₃ sums.head?.join := by
      cases sums with
      | nil => exact newOption_none
      | cons o _ => exact hsums o List.mem_cons_self
    exact createsNode_answer (h₀₂.trans h₃) _ _ hsum
  | some h =>
    have hterms := termsNew_blockTerms h₀₂ (h₂ hw.1) fun b hb => (hblocks b hb).1
    refine creates_bind (creates_sumSeries h₀₂ ha₂ hterms k hc₂ (blocks.map fun _ => none)
      (by simp [newOption_none])) fun S₃ sums h₃ hsums => ?_
    have h₀₃ : S₀ ⊆ S₃ := h₀₂.trans h₃
    refine creates_bind (Q := fun S' ys => ∀ y ∈ ys, y ∈ S' \ S₀)
      (createsNodes_mapM fun (sum, width) hp S₄ h₄ => ?_) fun S₄ ys h₄ hys => ?_
    · exact createsNode_answer (h₀₃.trans h₄) sum _ ((hsums _ (List.of_mem_zip hp).1).mono h₄)
    · refine createsNode_diagcat (h₀₃.trans h₄) (fun y hy => (hys y hy).1) fun y hy => ?_
      exact (hys y (by simp [hy])).2

end Smith

/-! ## Plugins -/

/-- The expressions for the matrices. -/
def DleInputs.operands (inputs : DleInputs α) : List (Expr α) := [inputs.a, inputs.v]

omit [Scalar α] in
theorem DleInputs.forall_operands {inputs : DleInputs α} {P : Expr α → Prop} :
    (∀ e ∈ inputs.operands, P e) ↔ P inputs.a ∧ P inputs.v := by simp [operands]

/-- What the method builds from inputs with the given operands is a new node, or it builds nothing. -/
def Plugin.CreatesNode {Inputs : Type} (p : Plugin Inputs α) (operands : Inputs → List (Expr α)) : Prop :=
  ∀ (S₀ S : Set (Expr α)) (inputs : Inputs) (options : Options), S₀ ⊆ S → (∀ e ∈ operands inputs, e ∈ S) →
    TryBuild.Creates S (p.build inputs options) fun S' e => e ∈ S' \ S₀

theorem Smith.createsNode_dlePlugin : (Smith.dlePlugin α).CreatesNode DleInputs.operands := by
  intro S₀ S inputs options h₀ hinputs
  refine TryBuild.creates_check _ fun _ _ => TryBuild.creates_check _ fun settings _ => ?_
  obtain ⟨ha, hv⟩ := DleInputs.forall_operands.1 hinputs
  exact TryBuild.creates_liftBuild (createsNode_dle h₀ ha hv settings)

theorem Kronecker.createsNode_dlePlugin : (Kronecker.dlePlugin α).CreatesNode DleInputs.operands := by
  intro S₀ S inputs options h₀ hinputs
  refine TryBuild.creates_check _ fun _ _ => ?_
  obtain ⟨ha, hv⟩ := DleInputs.forall_operands.1 hinputs
  exact TryBuild.creates_liftBuild (createsNode_dle h₀ ha hv)

theorem Smith.createsNode_lowRankPlugin : (Smith.lowRankPlugin α).CreatesNode LowRankInputs.operands := by
  intro S₀ S inputs options h₀ hinputs
  refine TryBuild.creates_check _ fun _ _ => TryBuild.creates_check _ fun settings _ => ?_
  exact TryBuild.creates_liftBuild (createsNode_lowRank h₀ hinputs settings.iter)

theorem Kronecker.createsNode_lowRankPlugin :
    (Kronecker.lowRankPlugin α).CreatesNode LowRankInputs.operands := by
  intro S₀ S inputs options h₀ hinputs
  refine TryBuild.creates_check _ fun _ _ => ?_
  exact TryBuild.creates_liftBuild (createsNode_lowRank h₀ hinputs)

theorem LowRankDle.createsNode_plugins :
    ∀ p ∈ LowRankDle.plugins α, p.CreatesNode LowRankInputs.operands := by
  rw [LowRankDle.plugins, List.forall_mem_cons, List.forall_mem_singleton]
  exact ⟨Smith.createsNode_lowRankPlugin, Kronecker.createsNode_lowRankPlugin⟩

/-- The method that hands the equation over builds what the other method builds. -/
theorem LowRankMethod.createsNode_dlePlugin : (LowRankMethod.dlePlugin α).CreatesNode DleInputs.operands := by
  intro S₀ S inputs options h₀ hinputs
  show TryBuild.Creates S (LowRankMethod.build α inputs options) _
  unfold LowRankMethod.build
  dsimp only
  split
  · exact TryBuild.creates_throw _
  · rename_i plugin hplugin
    refine TryBuild.creates_check _ fun resolved _ => ?_
    exact LowRankDle.createsNode_plugins plugin (List.mem_of_find?_eq_some hplugin) S₀ S _ resolved h₀ hinputs

theorem Dle.createsNode_plugins : ∀ p ∈ Dle.plugins α, p.CreatesNode DleInputs.operands := by
  rw [Dle.plugins, List.forall_mem_cons, List.forall_mem_cons, List.forall_mem_singleton]
  exact ⟨Smith.createsNode_dlePlugin, LowRankMethod.createsNode_dlePlugin, Kronecker.createsNode_dlePlugin⟩

end Lyapunov
