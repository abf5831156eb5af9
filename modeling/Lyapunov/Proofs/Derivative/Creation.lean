/-
The nodes that derivatives create. A sweep works on a table of nodes, which holds the seeds at the start;
every entry that it adds is a node created for the purpose, and so are the results. The nodes of the
function are used as operands and stay as they are.
-/
import Lyapunov.Proofs.Derivative.Reverse
import Lyapunov.Proofs.Expr.Creation

namespace Lyapunov

open Build

variable {α : Type} {S₀ S S' : Set (Expr α)}

/-- The entries of the table exist in `S`, and they do not belong to `S₀`. -/
def Expr.NewTable (S₀ S : Set (Expr α)) (t : Std.HashMap Nat (Expr α)) : Prop :=
  ∀ i : Nat, Expr.NewOption S₀ S t[i]?

namespace Expr

variable {t : Std.HashMap Nat (Expr α)} {x y : Expr α} {dx dy : Option (Expr α)}

theorem newTable_empty : NewTable S₀ S (∅ : Std.HashMap Nat (Expr α)) := fun i => by
  rw [Std.HashMap.getElem?_empty]
  exact newOption_none

theorem NewTable.mono (ht : NewTable S₀ S t) (hS : S ⊆ S') : NewTable S₀ S' t := fun i => (ht i).mono hS

theorem NewTable.insert (ht : NewTable S₀ S t) (i : Nat) (hx : x ∈ S \ S₀) : NewTable S₀ S (t.insert i x) :=
  forall_getElem?_insert ht i hx

/-! ## Expressions that may be absent -/

theorem creates_addOption (h₀ : S₀ ⊆ S) (hdx : NewOption S₀ S dx) (hdy : NewOption S₀ S dy) :
    Creates S (addOption dx dy) (NewOption S₀) := by
  cases dx with
  | none => exact creates_pure hdy
  | some x =>
    cases dy with
    | none => exact creates_pure hdx
    | some y =>
      exact (createsNode_binary h₀ (hdx x rfl).1 (hdy y rfl).1 .add).map fun _ _ _ => newOption_some

theorem creates_mapOption {f : Expr α → Build (Expr α)} (hdx : NewOption S₀ S dx)
    (hf : ∀ x ∈ S \ S₀, CreatesNode S₀ S (f x)) : Creates S (mapOption f dx) (NewOption S₀) := by
  cases dx with
  | none => exact creates_pure newOption_none
  | some x => exact (hf x (hdx x rfl)).map fun _ _ _ => newOption_some

end Expr

/-! ## Rates of change -/

section Tangents

open Lyapunov.Expr

variable {t : Tangents α} {x y e : Expr α} {dx dy : Option (Expr α)}

theorem UnaryOp.createsNode_tangent (h₀ : S₀ ⊆ S) (op : UnaryOp α) (hx : x ∈ S \ S₀) :
    CreatesNode S₀ S (op.tangent x) := by
  cases op with
  | neg => exact createsNode_unary h₀ hx.1 .neg
  | scale c => exact createsNode_unary h₀ hx.1 (.scale c)
  | transpose => exact createsNode_unary h₀ hx.1 .transpose
  | reshape s => exact createsNode_reshape_new h₀ hx s

theorem Expr.creates_productTangent (h₀ : S₀ ⊆ S) (op : BinaryOp) (hx : x ∈ S) (hy : y ∈ S)
    (hdx : NewOption S₀ S dx) (hdy : NewOption S₀ S dy) :
    Creates S (productTangent (newBinary op) x y dx dy) (NewOption S₀) := by
  refine creates_bind (creates_mapOption hdx fun z hz => createsNode_binary h₀ hz.1 hy op)
    fun S₁ l h₁ hl => ?_
  refine creates_bind (creates_mapOption (hdy.mono h₁) fun z hz =>
    createsNode_binary (h₀.trans h₁) (h₁ hx) hz.1 op) fun S₂ r h₂ hr => ?_
  exact creates_addOption (h₀.trans (h₁.trans h₂)) (hl.mono h₂) hr

theorem BinaryOp.creates_tangent (h₀ : S₀ ⊆ S) (op : BinaryOp) {result : Expr α} (hresult : result ∈ S)
    (hx : x ∈ S) (hy : y ∈ S) (hdx : NewOption S₀ S dx) (hdy : NewOption S₀ S dy) :
    Creates S (op.tangent result x y dx dy) (NewOption S₀) := by
  have hproduct (op : BinaryOp) := creates_productTangent h₀ op hx hy hdx hdy
  cases op with
  | add => exact creates_addOption h₀ hdx hdy
  | matmul => exact hproduct .matmul
  | kron => exact hproduct .kron
  | kronContractLeft => exact hproduct .kronContractLeft
  | kronContractRight => exact hproduct .kronContractRight
  | solve =>
    refine creates_bind (creates_mapOption hdx fun dm hdm => ?_) fun S₁ fromMatrix h₁ hfrom => ?_
    · exact creates_bind (createsNode_binary h₀ hdm.1 hresult .matmul) fun S₁ p h₁ hp =>
        createsNode_unary (h₀.trans h₁) hp.1 .neg
    · refine creates_bind (creates_addOption (h₀.trans h₁) (hdy.mono h₁) hfrom) fun S₂ db h₂ hdb => ?_
      have h₁₂ : S ⊆ S₂ := h₁.trans h₂
      exact creates_mapOption hdb fun z hz => createsNode_binary (h₀.trans h₁₂) (h₁₂ hx) hz.1 .solve
  | assertion => exact creates_pure hdx

theorem Tangents.creates_step (h₀ : S₀ ⊆ S) (ht : NewTable S₀ S t) (he : e ∈ S)
    (hops : ∀ x ∈ e.operands, x ∈ S) : Creates S (t.step e) (NewTable S₀) := by
  have hnode : Creates S (t.ofNode e) (NewOption S₀) := by
    cases e with
    | symbol | constant => exact creates_pure newOption_none
    | unary i op x => exact creates_mapOption (ht x.id) fun dx hdx => op.createsNode_tangent h₀ hdx
    | binary i op x y =>
      exact op.creates_tangent h₀ he (hops x (by simp [operands])) (hops y (by simp [operands]))
        (ht x.id) (ht y.id)
  refine creates_bind hnode fun S₁ o h₁ ho => ?_
  cases o with
  | none => exact creates_pure (ht.mono h₁)
  | some de => exact creates_pure ((ht.mono h₁).insert _ (ho de rfl))

end Tangents

/-! ## Adjoints -/

section Adjoints

open Lyapunov.Expr

variable {t : Adjoints α} {x y e bar : Expr α}

theorem UnaryOp.createsNode_adjoint (h₀ : S₀ ⊆ S) (op : UnaryOp α) (x : Expr α) (hbar : bar ∈ S \ S₀) :
    CreatesNode S₀ S (op.adjoint x bar) := by
  cases op with
  | neg => exact createsNode_unary h₀ hbar.1 .neg
  | scale c => exact createsNode_unary h₀ hbar.1 (.scale c)
  | transpose => exact createsNode_unary h₀ hbar.1 .transpose
  | reshape s => exact createsNode_reshape_new h₀ hbar x.shape

/-- The contribution to the first operand is new, and the one to the second operand if there is one. -/
def NewPair (S₀ S : Set (Expr α)) (bars : Expr α × Option (Expr α)) : Prop :=
  bars.1 ∈ S \ S₀ ∧ NewOption S₀ S bars.2

/-- Two products, one for each operand. -/
theorem creates_adjointPair {a b c d : Expr α} (h₀ : S₀ ⊆ S) (op op' : BinaryOp) (ha : a ∈ S) (hb : b ∈ S)
    (hc : c ∈ S) (hd : d ∈ S) :
    Creates S (do return (← newBinary op a b, some (← newBinary op' c d))) (NewPair S₀) := by
  refine creates_bind (createsNode_binary h₀ ha hb op) fun S₁ xBar h₁ hxBar => ?_
  exact (createsNode_binary (h₀.trans h₁) (h₁ hc) (h₁ hd) op').map fun S₂ yBar h₂ hyBar =>
    ⟨Set.sdiff_subset_sdiff_left h₂ hxBar, newOption_some hyBar⟩

theorem BinaryOp.creates_adjoint (h₀ : S₀ ⊆ S) (op : BinaryOp) {result : Expr α} (hresult : result ∈ S)
    (hx : x ∈ S) (hy : y ∈ S) (hbar : bar ∈ S \ S₀) :
    Creates S (op.adjoint result x y bar) (NewPair S₀) := by
  cases op with
  | add => exact creates_pure ⟨hbar, newOption_some hbar⟩
  | matmul =>
    refine creates_bind (createsNode_unary h₀ hy .transpose) fun S₁ yt h₁ hyt => ?_
    refine creates_bind (createsNode_binary (h₀.trans h₁) (h₁ hbar.1) hyt.1 .matmul)
      fun S₂ xBar h₂ hxBar => ?_
    have h₁₂ : S ⊆ S₂ := h₁.trans h₂
    refine creates_bind (createsNode_unary (h₀.trans h₁₂) (h₁₂ hx) .transpose) fun S₃ xt h₃ hxt => ?_
    have h₁₃ : S ⊆ S₃ := h₁₂.trans h₃
    exact (createsNode_binary (h₀.trans h₁₃) hxt.1 (h₁₃ hbar.1) .matmul).map fun S₄ yBar h₄ hyBar =>
      ⟨Set.sdiff_subset_sdiff_left (h₃.trans h₄) hxBar, newOption_some hyBar⟩
  | kron => exact creates_adjointPair h₀ .kronContractLeft .kronContractRight hbar.1 hy hbar.1 hx
  | kronContractLeft => exact creates_adjointPair h₀ .kron .kronContractRight hbar.1 hy hx hbar.1
  | kronContractRight => exact creates_adjointPair h₀ .kron .kronContractLeft hy hbar.1 hx hbar.1
  | solve =>
    refine creates_bind (createsNode_unary h₀ hx .transpose) fun S₁ xt h₁ hxt => ?_
    refine creates_bind (createsNode_binary (h₀.trans h₁) hxt.1 (h₁ hbar.1) .solve) fun S₂ yBar h₂ hyBar => ?_
    have h₁₂ : S ⊆ S₂ := h₁.trans h₂
    refine creates_bind (createsNode_unary (h₀.trans h₁₂) (h₁₂ hresult) .transpose) fun S₃ rt h₃ hrt => ?_
    have h₁₃ : S ⊆ S₃ := h₁₂.trans h₃
    refine creates_bind (createsNode_binary (h₀.trans h₁₃) (h₃ hyBar.1) hrt.1 .matmul) fun S₄ p h₄ hp => ?_
    exact (createsNode_unary (h₀.trans (h₁₃.trans h₄)) hp.1 .neg).map fun S₅ xBar h₅ hxBar =>
      ⟨hxBar, newOption_some (Set.sdiff_subset_sdiff_left (h₃.trans (h₄.trans h₅)) hyBar)⟩
  | assertion => exact creates_pure ⟨hbar, newOption_none⟩

theorem Adjoints.creates_accumulate (h₀ : S₀ ⊆ S) (ht : NewTable S₀ S t) (e : Expr α) (hbar : bar ∈ S \ S₀) :
    Creates S (t.accumulate e bar) (NewTable S₀) := by
  unfold accumulate
  have hold := ht e.id
  generalize t[e.id]? = found at hold ⊢
  cases found with
  | none => exact creates_pure (ht.insert _ hbar)
  | some old =>
    exact (createsNode_binary h₀ (hold old rfl).1 hbar.1 .add).map fun S₁ z h₁ hz => (ht.mono h₁).insert _ hz

theorem Adjoints.creates_step (h₀ : S₀ ⊆ S) (ht : NewTable S₀ S t) (he : e ∈ S)
    (hops : ∀ x ∈ e.operands, x ∈ S) : Creates S (t.step e) (NewTable S₀) := by
  unfold step
  have hown := ht e.id
  generalize t[e.id]? = found at hown ⊢
  cases found with
  | none => exact creates_pure ht
  | some bar =>
    have hbar := hown bar rfl
    cases e with
    | symbol | constant => exact creates_pure ht
    | unary i op x =>
      exact creates_bind (op.createsNode_adjoint h₀ x hbar) fun S₁ xBar h₁ hxBar =>
        creates_accumulate (h₀.trans h₁) (ht.mono h₁) x hxBar
    | binary i op x y =>
      have hx := hops x (by simp [operands])
      have hy := hops y (by simp [operands])
      refine creates_bind (op.creates_adjoint h₀ he hx hy hbar) fun S₁ bars h₁ hbars => ?_
      obtain ⟨xBar, yBar⟩ := bars
      obtain ⟨hxBar, hyBar⟩ := hbars
      refine creates_bind (creates_accumulate (h₀.trans h₁) (ht.mono h₁) x hxBar) fun S₂ t' h₂ ht' => ?_
      cases yBar with
      | none => exact creates_pure ht'
      | some yBar =>
        have hyBar := Set.sdiff_subset_sdiff_left h₂ (hyBar yBar rfl)
        exact creates_accumulate (h₀.trans (h₁.trans h₂)) ht' y hyBar

end Adjoints

/-! ## Directions -/

namespace Func

open Lyapunov.Expr

variable {f : Func α} {order : List (Expr α)}

/-- The named expressions exist in `S`, and they do not belong to `S₀`. -/
def NewNamed (S₀ S : Set (Expr α)) (named : List (String × Expr α)) : Prop := ∀ p ∈ named, p.2 ∈ S \ S₀

theorem NewNamed.mono {named : List (String × Expr α)} (h : NewNamed S₀ S named) (hS : S ⊆ S') :
    NewNamed S₀ S' named := fun p hp => Set.sdiff_subset_sdiff_left hS (h p hp)

theorem creates_newSeeds (h₀ : S₀ ⊆ S) (tag : String) (targets : List (String × Expr α)) :
    Creates S (newSeeds tag targets) (NewNamed S₀) :=
  creates_mapM (R := fun S' (p : String × Expr α) => p.2 ∈ S' \ S₀)
    (fun _ _ _ hS hp => Set.sdiff_subset_sdiff_left hS hp)
    fun _ _ _ h₁ => (createsNode_symbol (h₀.trans h₁) _ _).map fun _ _ _ he => he

/-- The result for a target is its entry of the table, or zeros. -/
theorem creates_results [Zero α] (h₀ : S₀ ⊆ S) {t : Std.HashMap Nat (Expr α)} (ht : NewTable S₀ S t)
    (tag : String) (targets : List (String × Expr α)) :
    Creates S (targets.mapM fun (name, e) => return (tag ++ name, ← orZeros e.shape t[e.id]?))
      (NewNamed S₀) := by
  refine creates_mapM (R := fun S' (p : String × Expr α) => p.2 ∈ S' \ S₀)
    (fun _ _ _ hS hp => Set.sdiff_subset_sdiff_left hS hp)
    fun (name, e) _ S₁ h₁ => Creates.map ?_ fun _ _ _ he => he
  have hresult := (ht e.id).mono h₁
  generalize t[e.id]? = found at hresult ⊢
  cases found with
  | none => exact createsNode_constant (h₀.trans h₁) _
  | some e => exact creates_pure (hresult e rfl)

theorem creates_startAdjoints (h₀ : S₀ ⊆ S) (f : Func α) {seeds : List (String × Expr α)}
    (hseeds : NewNamed S₀ S seeds) : Creates S (f.startAdjoints seeds) (NewTable S₀) :=
  creates_foldlM (fun _ hp _ _ h₁ ht => Adjoints.creates_accumulate (h₀.trans h₁) ht _
    (Set.sdiff_subset_sdiff_left h₁ (hseeds _ (List.of_mem_zip hp).2))) newTable_empty

/-- What a direction adds to the inputs and to the outputs is new. -/
def NewAdded (S₀ S : Set (Expr α)) (r : Added α) : Prop := NewNamed S₀ S r.1 ∧ NewNamed S₀ S r.2

variable [Scalar α]

theorem creates_forwardDirection (h₀ : S₀ ⊆ S) (horder : ∀ e ∈ order, e ∈ S ∧ ∀ x ∈ e.operands, x ∈ S)
    (direction : Nat) : Creates S (f.forwardDirection order direction) (NewAdded S₀) := by
  refine creates_bind (creates_newSeeds h₀ _ f.inputs) fun S₁ seeds h₁ hseeds => ?_
  refine creates_bind (creates_foldlM (Q := NewTable S₀) (fun e he S₂ t h₂ ht => ?_)
    (f.forall_startTangents hseeds)) fun S₂ t h₂ ht => ?_
  · have h₁₂ : S ⊆ S₂ := h₁.trans h₂
    exact Tangents.creates_step (h₀.trans h₁₂) ht (h₁₂ (horder e he).1) fun x hx => h₁₂ ((horder e he).2 x hx)
  · exact (creates_results (h₀.trans (h₁.trans h₂)) ht _ f.outputs).map fun S₃ rs h₃ hrs =>
      ⟨hseeds.mono (h₂.trans h₃), hrs⟩

theorem creates_reverseDirection (h₀ : S₀ ⊆ S) (horder : ∀ e ∈ order, e ∈ S ∧ ∀ x ∈ e.operands, x ∈ S)
    (direction : Nat) : Creates S (f.reverseDirection order direction) (NewAdded S₀) := by
  refine creates_bind (creates_newSeeds h₀ _ f.outputs) fun S₁ seeds h₁ hseeds => ?_
  refine creates_bind (creates_startAdjoints (h₀.trans h₁) f hseeds) fun S₂ start h₂ hstart => ?_
  refine creates_bind (creates_foldlM (Q := NewTable S₀) (fun e he S₃ t h₃ ht => ?_) hstart)
    fun S₃ t h₃ ht => ?_
  · have h₁₃ : S ⊆ S₃ := h₁.trans (h₂.trans h₃)
    have hnode := horder e (List.mem_reverse.1 he)
    exact Adjoints.creates_step (h₀.trans h₁₃) ht (h₁₃ hnode.1) fun x hx => h₁₃ (hnode.2 x hx)
  · exact (creates_results (h₀.trans (h₁.trans (h₂.trans h₃))) ht _ f.inputs).map fun S₄ rs h₄ hrs =>
      ⟨hseeds.mono (h₂.trans (h₃.trans h₄)), hrs⟩

/-! ## Derivatives -/

omit [Scalar α] in
/-- The expressions of the inputs and of the outputs. -/
def roots (f : Func α) : List (Expr α) := f.inputs.map (·.2) ++ f.outputs.map (·.2)

omit [Scalar α] in
theorem forall_roots {P : Expr α → Prop} :
    (∀ e ∈ f.roots, P e) ↔ (∀ p ∈ f.inputs, P p.2) ∧ ∀ p ∈ f.outputs, P p.2 := by
  rw [roots, List.forall_mem_append, List.forall_mem_map, List.forall_mem_map]

omit [Scalar α] in
/-- A function that extends `f` by directions has the roots of `f` and new ones. -/
theorem roots_of_make {g : Func α} {name : String} {rs : List (Added α)} (hrs : ∀ r ∈ rs, NewAdded S₀ S r)
    (hg : make name (f.inputs ++ rs.flatMap (·.1)) (f.outputs ++ rs.flatMap (·.2)) = .ok g) :
    ∀ e ∈ g.roots, e ∈ f.roots ∨ e ∈ S \ S₀ := by
  obtain ⟨-, hi, ho⟩ := make_eq_ok hg
  have hroots := forall_roots.1 fun e (he : e ∈ f.roots) => he
  rw [forall_roots, hi, ho, List.forall_mem_append, List.forall_mem_append]
  refine ⟨⟨fun p hp => .inl (hroots.1 p hp), fun p hp => ?_⟩,
    fun p hp => .inl (hroots.2 p hp), fun p hp => ?_⟩
  · obtain ⟨r, hr, hp⟩ := List.mem_flatMap.1 hp
    exact .inr ((hrs r hr).1 p hp)
  · obtain ⟨r, hr, hp⟩ := List.mem_flatMap.1 hp
    exact .inr ((hrs r hr).2 p hp)

omit [Scalar α] in
/-- A derivative that adds directions which create new nodes. -/
theorem creates_of_added {m : Nat → Build (Added α)} {n : Nat} {derivative : TryBuild (Func α)}
    {name : String} (hm : ∀ d S', S ⊆ S' → Creates S' (m d) (NewAdded S₀))
    (hrun : ∀ s, derivative.run.run s =
      (make name (f.inputs ++ (((List.range n).mapM m).run s).1.flatMap (·.1))
        (f.outputs ++ (((List.range n).mapM m).run s).1.flatMap (·.2)), (((List.range n).mapM m).run s).2)) :
    TryBuild.Creates S derivative fun S' g => ∀ e ∈ g.roots, e ∈ f.roots ∨ e ∈ S' \ S₀ := by
  intro s hs
  have hall : Creates S ((List.range n).mapM m) fun S' rs => ∀ r ∈ rs, NewAdded S₀ S' r :=
    creates_mapM (fun _ _ _ hS hr => ⟨hr.1.mono hS, hr.2.mono hS⟩) fun d _ S' hS => hm d S' hS
  obtain ⟨S', hS', hrs⟩ := hall s hs
  rw [hrun]
  exact ⟨S', hS', fun g hg => roots_of_make hrs hg⟩

section

variable (h₀ : S₀ ⊆ S) (hdag : IsDag (f.outputs.map (·.2))) (hnodes : f.nodes ⊆ S)

include hdag hnodes in
omit [Scalar α] in
theorem order_operands_mem (hS : S ⊆ S') :
    ∀ e ∈ topologicalOrder (f.outputs.map (·.2)), e ∈ S' ∧ ∀ x ∈ e.operands, x ∈ S' := fun e he => by
  have hreach := (mem_topologicalOrder hdag).1 he
  exact ⟨hS (hnodes (f.mem_nodes_of_reachable hreach)), fun x hx =>
    hS (hnodes (f.mem_nodes_of_reachable (hreach.below (below_of_operand hx))))⟩

include h₀ hdag hnodes

/-- A forward derivative has the roots of the function and new ones. -/
theorem creates_forward (n : Nat) :
    TryBuild.Creates S (f.forward n) fun S' g => ∀ e ∈ g.roots, e ∈ f.roots ∨ e ∈ S' \ S₀ :=
  creates_of_added (fun d _ hS => creates_forwardDirection (h₀.trans hS) (order_operands_mem hdag hnodes hS) d)
    (f.run_forward n)

/-- A reverse derivative has the roots of the function and new ones. -/
theorem creates_reverse (n : Nat) :
    TryBuild.Creates S (f.reverse n) fun S' g => ∀ e ∈ g.roots, e ∈ f.roots ∨ e ∈ S' \ S₀ :=
  creates_of_added (fun d _ hS => creates_reverseDirection (h₀.trans hS) (order_operands_mem hdag hnodes hS) d)
    (f.run_reverse n)

end

end Func

end Lyapunov
