/-
Derivatives of functions of one form. No rule of differentiation looks at a number, a name or a scalar, so
that derivatives of functions of one form, under a function of the scalars that keeps zero, consist of nodes
of one form. New nodes stand for each other from the numbers on with which the derivatives begin.
-/
import Lyapunov.Proofs.Derivative.Reverse
import Lyapunov.Proofs.Expr.Renaming
import Lyapunov.Proofs.Func.Renaming

namespace Lyapunov

open Build

variable {α β : Type} {ρ : Renaming}

section

variable {φ : α → β}

/-- Under numbers that stand for each other the maps have nodes of one form, or both have none. -/
def AlikeTables (ρ : Renaming) (φ : α → β) (t : Std.HashMap Nat (Expr α)) (t' : Std.HashMap Nat (Expr β)) :
    Prop :=
  ∀ i j : Nat, ρ.number i j → Option.Rel (Expr.Alike ρ φ) t[i]? t'[j]?

theorem alikeTables_empty : AlikeTables ρ φ ∅ ∅ := fun i j _ => by
  rw [Std.HashMap.getElem?_empty, Std.HashMap.getElem?_empty]
  exact .none

theorem AlikeTables.insert {t : Std.HashMap Nat (Expr α)} {t' : Std.HashMap Nat (Expr β)}
    (h : AlikeTables ρ φ t t') {i j : Nat} (hij : ρ.number i j) {e : Expr α} {e' : Expr β}
    (he : Expr.Alike ρ φ e e') : AlikeTables ρ φ (t.insert i e) (t'.insert j e') := by
  intro k l hkl
  have hsame : (i == k) = (j == l) := by
    rw [Bool.eq_iff_iff, beq_iff_eq, beq_iff_eq]
    exact ρ.oneToOne hij hkl
  rw [Std.HashMap.getElem?_insert, Std.HashMap.getElem?_insert, hsame]
  split
  · exact .some he
  · exact h k l hkl

/-- Seeds and results of one form. -/
structure AlikeAdded (ρ : Renaming) (φ : α → β) (r : Added α) (r' : Added β) : Prop where
  seeds : List.Forall₂ (AlikeNamed ρ φ) r.1 r'.1
  results : List.Forall₂ (AlikeNamed ρ φ) r.2 r'.2

/-! ## Nodes that may be absent -/

section

variable {o p : Option (Expr α)} {o' p' : Option (Expr β)} (ho : Option.Rel (Expr.Alike ρ φ) o o')

include ho

theorem alikeOption_mapOption {f : Expr α → Build (Expr α)} {f' : Expr β → Build (Expr β)}
    (hf : ∀ x x', Expr.Alike ρ φ x x' → Alike ρ φ (f x) (f' x')) :
    AlikeOption ρ φ (Expr.mapOption f o) (Expr.mapOption f' o') := by
  cases ho with
  | none => exact parallel_pure .none
  | some hx => exact parallel_bind (hf _ _ hx) fun _ _ hd => parallel_pure (.some hd)

theorem alikeOption_addOption (hp : Option.Rel (Expr.Alike ρ φ) p p') :
    AlikeOption ρ φ (Expr.addOption o p) (Expr.addOption o' p') := by
  cases ho with
  | none => exact parallel_pure hp
  | some hx =>
    cases hp with
    | none => exact parallel_pure (.some hx)
    | some hy => exact parallel_bind (alike_newBinary hx hy .add) fun _ _ hd => parallel_pure (.some hd)

theorem alike_orZeros [Zero α] [Zero β] (h0 : φ 0 = 0) (s : Shape) :
    Alike ρ φ (Func.orZeros s o) (Func.orZeros s o') := by
  cases ho with
  | none => exact alike_zeros h0 s
  | some he => exact parallel_pure he

end

/-! ## Rates of change -/

theorem UnaryOp.alike_tangent (op : UnaryOp α) {dx : Expr α} {dx' : Expr β} (h : Expr.Alike ρ φ dx dx') :
    Alike ρ φ (op.tangent dx) ((op.map φ).tangent dx') := by
  cases op with
  | reshape s => exact alike_reshape h s
  | _ => exact alike_newUnary h _

section

variable {result x y : Expr α} {result' x' y' : Expr β} (hresult : Expr.Alike ρ φ result result')
  (hx : Expr.Alike ρ φ x x') (hy : Expr.Alike ρ φ y y')

section

variable {dx dy : Option (Expr α)} {dx' dy' : Option (Expr β)} (hdx : Option.Rel (Expr.Alike ρ φ) dx dx')
  (hdy : Option.Rel (Expr.Alike ρ φ) dy dy')

include hx hy hdx hdy

theorem alikeOption_productTangent (op : BinaryOp) :
    AlikeOption ρ φ (Expr.productTangent (Expr.newBinary op) x y dx dy)
      (Expr.productTangent (Expr.newBinary op) x' y' dx' dy') := by
  refine parallel_bind (alikeOption_mapOption hdx fun _ _ hd => alike_newBinary hd hy op) fun _ _ hleft => ?_
  refine parallel_bind (alikeOption_mapOption hdy fun _ _ hd => alike_newBinary hx hd op) fun _ _ hright => ?_
  exact alikeOption_addOption hleft hright

include hresult

theorem BinaryOp.alikeOption_tangent (op : BinaryOp) :
    AlikeOption ρ φ (op.tangent result x y dx dy) (op.tangent result' x' y' dx' dy') := by
  cases op with
  | add => exact alikeOption_addOption hdx hdy
  | matmul => exact alikeOption_productTangent hx hy hdx hdy .matmul
  | kron => exact alikeOption_productTangent hx hy hdx hdy .kron
  | kronContractLeft => exact alikeOption_productTangent hx hy hdx hdy .kronContractLeft
  | kronContractRight => exact alikeOption_productTangent hx hy hdx hdy .kronContractRight
  | solve =>
    have hmatrix : AlikeOption ρ φ (Expr.mapOption (fun dm => do (← dm.matmul result).neg) dx)
        (Expr.mapOption (fun dm => do (← dm.matmul result').neg) dx') := by
      refine alikeOption_mapOption hdx fun _ _ hd => ?_
      exact parallel_bind (alike_newBinary hd hresult .matmul) fun _ _ he => alike_newUnary he .neg
    refine parallel_bind hmatrix fun _ _ hm => ?_
    refine parallel_bind (alikeOption_addOption hdy hm) fun _ _ hsum => ?_
    exact alikeOption_mapOption hsum fun _ _ hd => alike_newBinary hx hd .solve
  | assertion message => exact parallel_pure hdx

end

/-! ## Adjoints -/

/-- Computations of a node and one that may be absent, with nodes of one form. -/
abbrev Build.AlikePair (ρ : Renaming) (φ : α → β) (m : Build (Expr α × Option (Expr α)))
    (m' : Build (Expr β × Option (Expr β))) : Prop :=
  Parallel ρ m m' fun p q => Expr.Alike ρ φ p.1 q.1 ∧ Option.Rel (Expr.Alike ρ φ) p.2 q.2

theorem alikePair_bind {l r : Build (Expr α)} {l' r' : Build (Expr β)} (hl : Alike ρ φ l l')
    (hr : Alike ρ φ r r') : AlikePair ρ φ (do return (← l, some (← r))) (do return (← l', some (← r'))) :=
  parallel_bind hl fun _ _ hd => parallel_bind hr fun _ _ he => parallel_pure ⟨hd, .some he⟩

include hx

theorem UnaryOp.alike_adjoint (op : UnaryOp α) {bar : Expr α} {bar' : Expr β}
    (h : Expr.Alike ρ φ bar bar') : Alike ρ φ (op.adjoint x bar) ((op.map φ).adjoint x' bar') := by
  cases op with
  | reshape s =>
    show Alike ρ φ (bar.reshape x.shape) (bar'.reshape x'.shape)
    rw [hx.shape]
    exact alike_reshape h x.shape
  | _ => exact alike_newUnary h _

include hresult hy

theorem BinaryOp.alikePair_adjoint (op : BinaryOp) {bar : Expr α} {bar' : Expr β}
    (h : Expr.Alike ρ φ bar bar') :
    AlikePair ρ φ (op.adjoint result x y bar) (op.adjoint result' x' y' bar') := by
  cases op with
  | add => exact parallel_pure ⟨h, .some h⟩
  | matmul =>
    refine parallel_bind (alike_newUnary hy .transpose) fun _ _ hyt => ?_
    refine parallel_bind (alike_newBinary h hyt .matmul) fun _ _ hxbar => ?_
    refine parallel_bind (alike_newUnary hx .transpose) fun _ _ hxt => ?_
    refine parallel_bind (alike_newBinary hxt h .matmul) fun _ _ hybar => ?_
    exact parallel_pure ⟨hxbar, .some hybar⟩
  | kron => exact alikePair_bind (alike_newBinary h hy .kronContractLeft) (alike_newBinary h hx .kronContractRight)
  | kronContractLeft => exact alikePair_bind (alike_newBinary h hy .kron) (alike_newBinary hx h .kronContractRight)
  | kronContractRight => exact alikePair_bind (alike_newBinary hy h .kron) (alike_newBinary hx h .kronContractLeft)
  | solve =>
    refine parallel_bind (alike_newUnary hx .transpose) fun _ _ hxt => ?_
    refine parallel_bind (alike_newBinary hxt h .solve) fun _ _ hybar => ?_
    refine parallel_bind (alike_newUnary hresult .transpose) fun _ _ hrt => ?_
    refine parallel_bind (alike_newBinary hybar hrt .matmul) fun _ _ hproduct => ?_
    refine parallel_bind (alike_newUnary hproduct .neg) fun _ _ hxbar => ?_
    exact parallel_pure ⟨hxbar, .some hybar⟩
  | assertion message => exact parallel_pure ⟨h, .none⟩

end

/-! ## Steps of a sweep -/

section

variable {t : Std.HashMap Nat (Expr α)} {t' : Std.HashMap Nat (Expr β)} (ht : AlikeTables ρ φ t t')
  {e : Expr α} {e' : Expr β} (he : Expr.Alike ρ φ e e')

include ht he

theorem Tangents.parallel_step : Parallel ρ (Tangents.step t e) (Tangents.step t' e') (AlikeTables ρ φ) := by
  have hnode : AlikeOption ρ φ (Tangents.ofNode t e) (Tangents.ofNode t' e') := by
    cases he with
    | symbol | constant => exact parallel_pure .none
    | @unary i j op x x' _ hx =>
      exact alikeOption_mapOption (ht _ _ hx.number) fun _ _ hd => op.alike_tangent hd
    | @binary i j op x y x' y' hij hx hy =>
      exact BinaryOp.alikeOption_tangent (.binary hij hx hy) hx hy (ht _ _ hx.number) (ht _ _ hy.number) op
  refine parallel_bind hnode fun o o' ho => ?_
  cases ho with
  | none => exact parallel_pure ht
  | some hd => exact parallel_pure (ht.insert he.number hd)

theorem Adjoints.parallel_accumulate {c : Expr α} {c' : Expr β} (hc : Expr.Alike ρ φ c c') :
    Parallel ρ (Adjoints.accumulate t e c) (Adjoints.accumulate t' e' c') (AlikeTables ρ φ) := by
  unfold Adjoints.accumulate
  have hsum := ht _ _ he.number
  generalize t[e.id]? = o, t'[e'.id]? = o' at hsum
  cases hsum with
  | none => exact parallel_pure (ht.insert he.number hc)
  | some hbar =>
    exact parallel_bind (alike_newBinary hbar hc .add) fun _ _ hd => parallel_pure (ht.insert he.number hd)

theorem Adjoints.parallel_step : Parallel ρ (Adjoints.step t e) (Adjoints.step t' e') (AlikeTables ρ φ) := by
  unfold Adjoints.step
  have hown := ht _ _ he.number
  generalize t[e.id]? = o, t'[e'.id]? = o' at hown
  cases hown with
  | none => exact parallel_pure ht
  | some hbar =>
    cases he with
    | symbol | constant => exact parallel_pure ht
    | @unary i j op x x' _ hx =>
      exact parallel_bind (op.alike_adjoint hx hbar) fun _ _ hc => parallel_accumulate ht hx hc
    | @binary i j op x y x' y' hij hx hy =>
      refine parallel_bind (BinaryOp.alikePair_adjoint (.binary hij hx hy) hx hy op hbar) fun p p' hp => ?_
      obtain ⟨c, d⟩ := p
      obtain ⟨c', d'⟩ := p'
      obtain ⟨hc, hd⟩ := hp
      refine parallel_bind (parallel_accumulate ht hx hc) fun t₁ t₁' ht₁ => ?_
      cases hd with
      | none => exact parallel_pure ht₁
      | some hd => exact parallel_accumulate ht₁ hy hd

end

/-! ## Seeds and results -/

section

variable {targets : List (String × Expr α)} {targets' : List (String × Expr β)}
  (htargets : List.Forall₂ (AlikeNamed ρ φ) targets targets') (tag : String)

include htargets

theorem parallel_newSeeds : Parallel ρ (Func.newSeeds tag targets) (Func.newSeeds tag targets')
    (List.Forall₂ (AlikeNamed ρ φ)) := by
  refine parallel_mapM htargets fun p q hpq => ?_
  obtain ⟨x, e⟩ := p
  obtain ⟨y, e'⟩ := q
  have hseed : Alike ρ φ (Expr.newSymbol (tag ++ x) e.shape) (Expr.newSymbol (tag ++ y) e'.shape) := by
    rw [hpq.node.shape]
    exact alike_newSymbol (ρ.tagged tag hpq.name) e.shape
  exact parallel_bind hseed fun _ _ hd => parallel_pure ⟨ρ.tagged tag hpq.name, hd⟩

/-- The nodes that a map holds for named nodes, under the names with a tag. -/
theorem parallel_results [Zero α] [Zero β] (h0 : φ 0 = 0) {t : Std.HashMap Nat (Expr α)}
    {t' : Std.HashMap Nat (Expr β)} (ht : AlikeTables ρ φ t t') :
    Parallel ρ (targets.mapM fun p => return (tag ++ p.1, ← Func.orZeros p.2.shape t[p.2.id]?))
      (targets'.mapM fun p => return (tag ++ p.1, ← Func.orZeros p.2.shape t'[p.2.id]?))
      (List.Forall₂ (AlikeNamed ρ φ)) := by
  refine parallel_mapM htargets fun p q hpq => ?_
  rw [hpq.node.shape]
  refine parallel_bind (alike_orZeros (ht _ _ hpq.node.number) h0 p.2.shape) fun _ _ hd => ?_
  exact parallel_pure ⟨ρ.tagged tag hpq.name, hd⟩

end

/-! ## Functions -/

namespace Func

variable {f : Func α} {f' : Func β} (h : Alike ρ φ f f')

include h

theorem Alike.alikeTables_startTangents {seeds : List (String × Expr α)} {seeds' : List (String × Expr β)}
    (hseeds : List.Forall₂ (AlikeNamed ρ φ) seeds seeds') :
    AlikeTables ρ φ (f.startTangents seeds) (f'.startTangents seeds') := by
  refine List.rel_foldl (P := AlikeTables ρ φ) (fun t t' ht p q hpq => ?_) alikeTables_empty
    (Except.forall₂_zip_zip h.inputs hseeds)
  exact ht.insert hpq.1.node.number hpq.2.node

theorem Alike.parallel_startAdjoints {seeds : List (String × Expr α)} {seeds' : List (String × Expr β)}
    (hseeds : List.Forall₂ (AlikeNamed ρ φ) seeds seeds') :
    Parallel ρ (f.startAdjoints seeds) (f'.startAdjoints seeds') (AlikeTables ρ φ) :=
  parallel_foldlM (Except.forall₂_zip_zip h.outputs hseeds)
    (fun _ _ _ _ hpq ht => Adjoints.parallel_accumulate ht hpq.1.node hpq.2.node) alikeTables_empty

variable [Scalar α] [Scalar β] (h0 : φ 0 = 0)

include h0

/-- A direction of a forward derivative. -/
theorem Alike.parallel_forwardDirection (direction : Nat) :
    Parallel ρ (f.forwardDirection (Expr.topologicalOrder (f.outputs.map (·.2))) direction)
      (f'.forwardDirection (Expr.topologicalOrder (f'.outputs.map (·.2))) direction) (AlikeAdded ρ φ) := by
  unfold forwardDirection
  refine parallel_bind (parallel_newSeeds h.inputs _) fun seeds seeds' hseeds => ?_
  refine parallel_bind (parallel_foldlM (forall₂_order h.outputs) (fun _ _ _ _ he ht => Tangents.parallel_step ht he)
    (h.alikeTables_startTangents hseeds)) fun t t' ht => ?_
  refine parallel_bind (parallel_results h.outputs _ h0 ht) fun results results' hresults => ?_
  exact parallel_pure ⟨hseeds, hresults⟩

/-- A direction of a reverse derivative. -/
theorem Alike.parallel_reverseDirection (direction : Nat) :
    Parallel ρ (f.reverseDirection (Expr.topologicalOrder (f.outputs.map (·.2))) direction)
      (f'.reverseDirection (Expr.topologicalOrder (f'.outputs.map (·.2))) direction) (AlikeAdded ρ φ) := by
  unfold reverseDirection
  refine parallel_bind (parallel_newSeeds h.outputs _) fun seeds seeds' hseeds => ?_
  refine parallel_bind (h.parallel_startAdjoints hseeds) fun start start' hstart => ?_
  refine parallel_bind (parallel_foldlM (List.rel_reverse (forall₂_order h.outputs))
    (fun _ _ _ _ he ht => Adjoints.parallel_step ht he) hstart) fun t t' ht => ?_
  refine parallel_bind (parallel_results h.inputs _ h0 ht) fun results results' hresults => ?_
  exact parallel_pure ⟨hseeds, hresults⟩

/-- What forward derivatives of functions of one form add is of one form. -/
theorem Alike.parallel_forwardAdded (n : Nat) :
    Parallel ρ (f.forwardAdded n) (f'.forwardAdded n) (List.Forall₂ (AlikeAdded ρ φ)) :=
  parallel_mapM (List.forall₂_same.2 fun _ _ => rfl) fun d _ hd => hd ▸ h.parallel_forwardDirection h0 d

/-- What reverse derivatives of functions of one form add is of one form. -/
theorem Alike.parallel_reverseAdded (n : Nat) :
    Parallel ρ (f.reverseAdded n) (f'.reverseAdded n) (List.Forall₂ (AlikeAdded ρ φ)) :=
  parallel_mapM (List.forall₂_same.2 fun _ _ => rfl) fun d _ hd => hd ▸ h.parallel_reverseDirection h0 d

end Func

end

end Lyapunov
