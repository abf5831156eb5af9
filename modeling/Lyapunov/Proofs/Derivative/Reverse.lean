/-
Reverse derivatives are the adjoints of forward derivatives. In exact arithmetic, for all weights of the
outputs and all rates of change of the inputs, the weights pair with the rates of change that a forward
derivative gives for the outputs as the rates of change of the inputs do with what a reverse derivative
gives for the inputs.
-/
import Mathlib.Algebra.BigOperators.Group.Finset.Basic
import Lyapunov.Proofs.Derivative.Forward
import Lyapunov.Proofs.Derivative.Pairing

namespace Lyapunov

open Build

variable {α : Type}

namespace Func

/-! ## The graph -/

section Graph

variable {f : Func α} {n : Nat}

/-- The adjoints at the start: what each output is given by its seed. -/
def startAdjoints (f : Func α) (seeds : List (String × Expr α)) : Build (Adjoints α) :=
  (f.outputs.zip seeds).foldlM (fun t p => t.accumulate p.1.2 p.2.2) ∅

theorem grows_startAdjoints (hf : f.NumberedBelow n) {F : Prop} {R : Shape → Prop} {S T : Set (Expr α)}
    {tag : String} {seeds : List (String × Expr α)}
    (hseeds : List.Forall₂ (IsSeed tag) f.outputs seeds) (hmem : ∀ p ∈ seeds, p.2 ∈ S)
    (hR : F → ∀ e ∈ f.nodes, R e.shape) :
    Grows (Fits F R T) S (f.startAdjoints seeds) (Fitted F f.nodes) := by
  have hempty : Fitted F f.nodes S (∅ : Adjoints α) := fun x _ => by
    rw [Std.HashMap.getElem?_empty]
    exact optNode_none
  refine grows_foldlM (fun p hp S' t hS ht => ?_) hempty
  have hnode := f.output_mem_nodes (List.of_mem_zip hp).1
  refine Adjoints.grows_accumulate hf.graph ht hnode ⟨hS (hmem _ (List.of_mem_zip hp).2), fun _ => ?_⟩
    fun hF => hR hF _ hnode
  exact (List.forall₂_zip hseeds hp).shape

variable [Scalar α]

/-- What a reverse derivative in `n` directions adds. -/
def reverseAdded (f : Func α) (n : Nat) : Build (List (Added α)) :=
  (List.range n).mapM (f.reverseDirection (Expr.topologicalOrder (f.outputs.map (·.2))))

theorem run_reverse (f : Func α) (n s : Nat) :
    (f.reverse n).run.run s =
      (make s!"adj{n}_{f.name}" (f.inputs ++ ((f.reverseAdded n).run s).1.flatMap (·.1))
        (f.outputs ++ ((f.reverseAdded n).run s).1.flatMap (·.2)), ((f.reverseAdded n).run s).2) := by
  unfold reverse
  exact TryBuild.run_bind_ok (TryBuild.run_mapM_liftM _ _ s)

/-- The results of one direction, given its seeds. -/
def reverseResults (f : Func α) (order : List (Expr α)) (direction : Nat)
    (seeds : List (String × Expr α)) : Build (List (String × Expr α)) := do
  let start ← f.startAdjoints seeds
  let adjoints ← order.reverse.foldlM Adjoints.step start
  f.inputs.mapM fun (name, e) =>
    return (directionTag "adj" direction ++ name, ← orZeros e.shape adjoints[e.id]?)

theorem extends_reverseDirection (hf : f.NumberedBelow n) {F : Prop} {R : Shape → Prop}
    (htr : ∀ s, R s → R s.transpose) (hR : F → ∀ e ∈ f.nodes, R e.shape)
    (hblocks : F → ∀ e ∈ f.nodes, e.Contractible) (direction : Nat) :
    Extends F R f.nodes f.outputs f.inputs (directionTag "adj" direction)
      (f.reverseDirection (Expr.topologicalOrder (f.outputs.map (·.2))) direction) := by
  have hdirection : Extends F R f.nodes f.outputs f.inputs (directionTag "adj" direction) (do
      let seeds ← newSeeds (directionTag "adj" direction) f.outputs
      let results ← f.reverseResults (Expr.topologicalOrder (f.outputs.map (·.2))) direction seeds
      return (seeds, results)) := by
    refine extends_newSeeds ?_ fun p hp => f.output_mem_nodes hp
    intro T S seeds hGS hseeds hmem
    refine grows_of_holds fun hfit => ?_
    have hfit' : ∀ e ∈ f.nodes, Fits F R T e := fun e he => hfit e (hGS he)
    refine grows_bind (grows_startAdjoints hf hseeds hmem hR) fun S₁ start hS₁ hstart => ?_
    have horder : ∀ e ∈ (Expr.topologicalOrder (f.outputs.map (·.2))).reverse, e ∈ f.nodes :=
      fun e he => hf.order_mem_nodes e (List.mem_reverse.1 he)
    refine grows_bind (Adjoints.grows_sweep htr hf.graph hfit' hblocks (hGS.trans hS₁) horder hstart)
      fun S₂ t _ ht => ?_
    refine grows_mapM (fun S₃ S₄ x r hS hr => ⟨hr.name, hr.node.mono hS⟩) fun x hx S₃ hS₃ => ?_
    have hnode := (ht x.2 (f.input_mem_nodes hx)).mono hS₃
    refine grows_bind (grows_orZeros hnode fun hF => hR hF _ (f.input_mem_nodes hx)) fun S₄ d _ hd => ?_
    exact grows_pure ⟨rfl, hd⟩
  exact hdirection

/-- A reverse derivative extends the function. -/
theorem exists_extension_reverse (hf : f.NumberedBelow n) {F : Prop} {R : Shape → Prop}
    (htr : ∀ s, R s → R s.transpose) (hR : F → ∀ e ∈ f.nodes, R e.shape)
    (hblocks : F → ∀ e ∈ f.nodes, e.Contractible) (k : Nat) :
    ∃ S, Extension F R f ((f.reverseAdded k).run n).2 S
        (((f.reverseAdded k).run n).1.flatMap (·.1)) (((f.reverseAdded k).run n).1.flatMap (·.2)) ∧
      Directed F S (directionTag "adj") f.outputs f.inputs (List.range k) ((f.reverseAdded k).run n).1 :=
  exists_extension hf hR (fun d => extends_reverseDirection hf htr hR hblocks d) (List.range k)

/-- The names of the inputs and outputs of a reverse derivative. -/
theorem names_reverse (hf : f.NumberedBelow n) {k n' : Nat} {g : Func α}
    (hg : (f.reverse k).run.run n = (.ok g, n')) :
    g.inputNames = f.inputNames ++ tagged "adj" k f.outputNames ∧
      g.outputNames = f.outputNames ++ tagged "adj" k f.inputNames := by
  rw [run_reverse] at hg
  obtain ⟨-, hi, ho⟩ := make_eq_ok (Prod.mk.inj hg).1
  obtain ⟨S, -, hadded⟩ := exists_extension_reverse (F := False) (R := fun _ => True) hf
    (fun _ _ => trivial) (fun h => h.elim) (fun h => h.elim) k
  simp only [inputNames, outputNames, hi, ho, List.map_append, hadded.seedNames, hadded.resultNames,
    and_self]

/-- Where no Kronecker product or contraction is empty, a reverse derivative exists exactly when none of
its names is taken. -/
theorem exists_reverse_iff_of_contractible (hf : f.NumberedBelow n)
    (hblocks : ∀ e ∈ f.nodes, e.Contractible) (k : Nat) :
    (∃ g n', (f.reverse k).run.run n = (.ok g, n')) ↔
      ∀ d < k, (∀ x ∈ f.outputNames, directionTag "adj" d ++ x ∉ f.inputNames) ∧
        ∀ x ∈ f.inputNames, directionTag "adj" d ++ x ∉ f.outputNames := by
  obtain ⟨S, hext, hadded⟩ := exists_extension_reverse (F := True) (R := fun _ => True) hf
    (fun _ _ => trivial) (fun _ _ _ => trivial) (fun _ => hblocks) k
  have hmake := hext.exists_make_iff hadded f.named.outputNames f.named.inputNames s!"adj{k}_{f.name}"
  refine Iff.trans ?_ hmake
  rw [run_reverse]
  exact ⟨fun ⟨g, _, hg⟩ => ⟨g, (Prod.mk.inj hg).1⟩, fun ⟨g, hg⟩ => ⟨g, _, Prod.ext hg rfl⟩⟩

omit [Scalar α] in
theorem NumberedBelow.contractible (hf : f.NumberedBelow n) (hR : ∀ e ∈ f.nodes, e.shape.HasEntries) :
    ∀ e ∈ f.nodes, e.Contractible := fun e he =>
  Expr.contractible_of_hasEntries (hR e he) fun x hx => hR x (hf.graph.closed e he x hx)

/-- A reverse derivative of a function without empty nodes exists exactly when none of its names is
taken. -/
theorem exists_reverse_iff (hf : f.NumberedBelow n)
    (hR : ∀ e ∈ f.nodes, e.shape.HasEntries) (k : Nat) :
    (∃ g n', (f.reverse k).run.run n = (.ok g, n')) ↔
      ∀ d < k, (∀ x ∈ f.outputNames, directionTag "adj" d ++ x ∉ f.inputNames) ∧
        ∀ x ∈ f.inputNames, directionTag "adj" d ++ x ∉ f.outputNames :=
  exists_reverse_iff_of_contractible hf (hf.contractible hR) k

/-- The nodes of a reverse derivative have numbers below that of the next node, and shapes like those of
the function. -/
theorem nodes_reverse (hf : f.NumberedBelow n) (hR : ∀ e ∈ f.nodes, e.shape.HasEntries)
    {k n' : Nat} {g : Func α} (hg : (f.reverse k).run.run n = (.ok g, n')) :
    g.NumberedBelow n' ∧ ∀ e ∈ g.nodes, e.shape.HasEntries := by
  rw [run_reverse] at hg
  obtain ⟨hmake, rfl⟩ := Prod.mk.inj hg
  obtain ⟨S, hext, -⟩ := exists_extension_reverse (F := True) (R := Shape.HasEntries) hf
    (fun _ h => h.transpose) (fun _ => hR) (fun _ => hf.contractible hR) k
  exact ⟨hext.numberedBelow hmake, fun e he =>
    ((hext.store.holds e (hext.nodes_subset hmake he)).check trivial).2⟩

end Graph

/-! ## The values -/

section Value

variable {R : Type} [LocalScalar R] {f : Func R} {s : Nat} {args : List (Argument R)}
  {values : List (Dense R)} {env point rates : Nat → Dense R} {l : List (Expr R)}

/-- Symbols give what they stand for to the outputs. -/
theorem returns_startAdjoints (hl : (l.map Expr.id).Nodup) {tag : String}
    {targets seeds : List (String × Expr R)} (hseeds : List.Forall₂ (IsSeed tag) targets seeds)
    (hmem : ∀ y ∈ targets, y.2 ∈ l ∧ y.2.Evaluated point) {ws : List (Dense R)}
    (hbind : List.Forall₂ (fun p w => env p.2.id = w ∧ w.shape = p.2.shape) seeds ws)
    (t : Adjoints R) :
    ((targets.zip seeds).foldlM (fun (t : Adjoints R) p => t.accumulate p.1.2 p.2.2) t).Returns fun t' =>
      Adjoints.Receives env point rates l t t'
        (Dense.innerSum ws (targets.map (·.2.rate point rates))) True := by
  induction hseeds generalizing ws t with
  | nil =>
    cases hbind
    exact returns_pure (Adjoints.receives_refl l t)
  | @cons y p targets seeds hseed _ ih =>
    obtain ⟨hy, heval⟩ := hmem y List.mem_cons_self
    cases hbind with
    | @cons _ w _ ws hw hbind =>
      obtain ⟨hw, hshape⟩ := hw
      have hvalue : p.2.value env = .ok w := by rw [Expr.value_of_isSymbol env hseed.symbol, hw]
      have hsound (_ : p.2.Checked) : ∃ w, p.2.Computes env w ∧ w.shape = y.2.shape :=
        ⟨w, ⟨hvalue, hshape.symm⟩, hshape.trans hseed.shape⟩
      rw [List.zip_cons_cons, List.foldlM_cons]
      refine returns_bind (Adjoints.returns_accumulate rates hl hy heval hsound) fun t₁ ht₁ => ?_
      refine (ih (fun z hz => hmem z (List.mem_cons_of_mem y hz)) hbind t₁).imp fun t₂ ht₂ => ?_
      refine (ht₁.trans ht₂).imp (fun _ => ?_) fun _ => trivial
      rw [Expr.valueD_eq env hvalue, Dense.innerSum, Dense.innerSum, List.map_cons, List.zipWith_cons_cons,
        List.sum_cons]

/-- What the symbols of the graph are left with pairs with their rates of change as what the inputs are
left with does; an input that no output depends on is left with nothing. -/
theorem sum_inputs_eq (hf : f.NumberedBelow s) (hl : Ordered l)
    (hmem : ∀ x, x ∈ l ↔ Expr.Reachable (f.outputs.map (·.2)) x) {φ : Expr R → R}
    (hφ : ∀ x ∈ f.inputs, x.2 ∉ l → φ x.2 = 0) :
    ((l.filter Expr.isSymbol).map φ).sum = (f.inputs.map (φ ·.2)).sum := by
  classical
  have hsymbols : (l.filter Expr.isSymbol).Nodup := hl.nodup.of_map.filter _
  have hinputs : (f.inputs.map (·.2)).Nodup := by
    refine .of_map Expr.id ?_
    rw [List.map_map]
    exact f.named.inputIds
  have hmap : f.inputs.map (φ ·.2) = (f.inputs.map (·.2)).map φ := by rw [List.map_map]; rfl
  rw [hmap, ← List.sum_toFinset _ hsymbols, ← List.sum_toFinset _ hinputs]
  refine Finset.sum_subset (fun x hx => ?_) fun x hx hnot => ?_
  · rw [List.mem_toFinset, List.mem_filter] at hx
    obtain ⟨p, hp, rfl⟩ := hf.symbol x (f.mem_nodes_of_reachable ((hmem x).1 hx.1)) hx.2
    exact List.mem_toFinset.2 (List.mem_map_of_mem hp)
  · obtain ⟨p, hp, rfl⟩ := List.mem_map.1 (List.mem_toFinset.1 hx)
    refine hφ p hp fun hpl => hnot ?_
    exact List.mem_toFinset.2 (List.mem_filter.2 ⟨hpl, f.named.symbols p hp⟩)

/-- The result `o` for the input `x`: what it is left with, or zeros. -/
structure ReverseResult (env point : Nat → Dense R) (t : Adjoints R) (tag : String)
    (x o : String × Expr R) : Prop where
  name : o.1 = tag ++ x.1
  eq : ∀ bar, t[x.2.id]? = some bar → o.2 = bar
  value : o.2.Checked → o.2.Computes env (o.2.valueD env) ∧ (o.2.valueD env).shape = x.2.shape
  pairing : ∀ rates, Adjoints.pairing env point rates t x.2 =
    (o.2.valueD env).inner (x.2.rate point rates)

theorem returns_reverseResult (point : Nat → Dense R) {t : Adjoints R} {x : String × Expr R} (tag : String)
    (hsound : ∀ bar, t[x.2.id]? = some bar → bar.Checked →
      ∃ w, bar.Computes env w ∧ w.shape = x.2.shape) :
    Returns (do return (tag ++ x.1, ← orZeros x.2.shape t[x.2.id]?)) (ReverseResult env point t tag x) := by
  cases h : t[x.2.id]? with
  | none =>
    refine returns_bind (Q := fun e => e.Computes env (.zero x.2.shape))
      (returns_newConstant fun i => ⟨rfl, rfl⟩) fun e he => returns_pure ⟨rfl, ?_, fun _ => ?_, fun rates => ?_⟩
    · intro bar hbar
      rw [h] at hbar
      cases hbar
    · rw [Expr.valueD_eq env he.value]
      exact ⟨he, rfl⟩
    · rw [Adjoints.pairing_of_none h, Expr.valueD_eq env he.value, Dense.zero_inner]
  | some bar =>
    refine returns_pure ⟨rfl, fun bar' hbar => ?_, fun hc => ?_, fun rates => Adjoints.pairing_of_some h⟩
    · rw [h] at hbar
      exact Option.some.inj hbar
    · obtain ⟨w, hw, hws⟩ := hsound bar h hc
      rw [Expr.valueD_eq env hw.value]
      exact ⟨hw, hws⟩

/-- What the sweep of a direction with the weights `w` leaves behind: the symbols together hold what the
outputs were given. -/
structure Swept (f : Func R) (args w : List (Argument R)) (env : Nat → Dense R) (l : List (Expr R))
    (t : Adjoints R) : Prop where
  sound : Adjoints.Sound env l t
  unused : ∀ x ∈ f.inputs, x.2 ∉ l → t[x.2.id]? = none
  total : ∀ u : List (Argument R), u.map (·.shape) = f.inputShapes → Adjoints.SymbolsFit l t →
    Dense.innerSum (w.map (·.toDense)) (f.outputs.map (·.2.rate (f.binding args) (f.binding u))) =
      ((l.filter Expr.isSymbol).map (Adjoints.pairing env (f.binding args) (f.binding u) t)).sum

theorem returns_swept (hf : f.NumberedBelow s) (hv : f.eval args = .ok values)
    {w : List (Argument R)} (hw : w.map (·.shape) = f.outputShapes)
    (henv : ∀ e ∈ nodesOf f.inputs, env e.id = f.binding args e.id) {tag : String}
    {seeds : List (String × Expr R)} (hseeds : List.Forall₂ (IsSeed tag) f.outputs seeds)
    (hbind : ∀ p ∈ seeds.zip w, env p.1.2.id = p.2.toDense) (hord : Ordered l)
    (hmem : ∀ x, x ∈ l ↔ Expr.Reachable (f.outputs.map (·.2)) x) :
    (f.startAdjoints seeds).Returns fun start =>
      (l.foldlM Adjoints.step start).Returns (f.Swept args w env l) := by
  have hnode {e} (he : e ∈ l) : e ∈ f.nodes := f.mem_nodes_of_reachable ((hmem e).1 he)
  have houtput : ∀ y ∈ f.outputs, y.2 ∈ l ∧ y.2.Evaluated (f.binding args) := fun y hy =>
    ⟨(hmem y.2).2 (f.reachable_output hy), hf.evaluated hv (f.reachable_output hy)⟩
  have hweights : List.Forall₂ (fun p w => env p.2.id = w ∧ w.shape = p.2.shape) seeds
      (w.map (·.toDense)) := by
    have hshapes := forall₂_shape_seeds hseeds hw
    rw [List.forall₂_map_right_iff, List.forall₂_iff_zip]
    refine ⟨hshapes.length_eq, fun hp => ⟨hbind _ hp, ?_⟩⟩
    exact (Argument.shape_toDense _).trans (List.forall₂_zip hshapes hp)
  have hempty (i : Nat) : (∅ : Adjoints R)[i]? = none := Std.HashMap.getElem?_empty
  have hemptySound : Adjoints.Sound env l ∅ := fun x _ bar hbar => by
    rw [hempty] at hbar
    cases hbar
  -- what is handed out and down does not depend on the rates of change
  have hstart : (f.startAdjoints seeds).Returns fun start => ∀ rates,
      Adjoints.Receives env (f.binding args) rates l ∅ start
        (Dense.innerSum (w.map (·.toDense)) (f.outputs.map (·.2.rate (f.binding args) rates))) True :=
    fun n rates => returns_startAdjoints hord.nodup hseeds houtput hweights ∅ n
  refine hstart.imp fun start hstart => ?_
  have hsound : Adjoints.Sound env l start := (hstart (f.binding args)).sound hemptySound
  have hsweep : (l.foldlM Adjoints.step start).Returns fun t => ∀ rates, (∀ e ∈ f.nodes, e.Bound rates) →
      Adjoints.Settles env (f.binding args) rates l start t :=
    fun n rates hb => Adjoints.returns_sweep hord (fun e he =>
      ⟨hf.evaluated hv ((hmem e).1 he), hb e (hnode he),
        fun x hx => hf.computes hv henv (((hmem e).1 he).below hx)⟩) hsound n
  refine hsweep.imp fun t ht => ?_
  have hargs := ht _ fun e he => hf.bound (shapes_of_eval hv) he
  refine ⟨hargs.sound, fun x hx hxl => ?_, fun u hu hsymbols => ?_⟩
  · have hnew : ∀ y ∈ l, y.id ≠ x.2.id := fun y hy hid =>
      hxl (hf.graph.unique y (hnode hy) x.2 (f.input_mem_nodes hx) hid ▸ hy)
    rw [hargs.kept _ hnew, (hstart (f.binding args)).kept _ hnew, hempty]
  · have hsettles := ht _ fun e he => hf.bound hu he
    have hzero : Adjoints.total env (f.binding args) (f.binding u) l ∅ = 0 :=
      List.sum_eq_zero fun z hz => by
        obtain ⟨x, -, rfl⟩ := List.mem_map.1 hz
        exact Adjoints.pairing_of_none (hempty x.id)
    rw [← hsettles.total hsymbols, (hstart (f.binding u)).total hemptySound (hsettles.fit hsymbols), hzero,
      zero_add]

/-- The results of a direction with the weights `w`: they have values of the shapes of the inputs, which
pair with rates of change of the inputs as the weights do with those of the outputs. -/
structure Adjoint (f : Func R) (args w : List (Argument R)) (env : Nat → Dense R) (tag : String)
    (rs : List (String × Expr R)) : Prop where
  values : List.Forall₂ (fun x o => o.1 = tag ++ x.1 ∧ o.2.Computes env (o.2.valueD env) ∧
    (o.2.valueD env).shape = x.2.shape) f.inputs rs
  pairing : ∀ u : List (Argument R), u.map (·.shape) = f.inputShapes →
    Dense.innerSum (w.map (·.toDense)) (f.outputs.map (·.2.rate (f.binding args) (f.binding u))) =
      Dense.innerSum (rs.map (·.2.valueD env)) (u.map (·.toDense))

theorem sum_eq_innerSum {φ : String × Expr R → R} {inputs rs : List (String × Expr R)}
    {us : List (Dense R)}
    (hrs : List.Forall₂ (fun x o => φ x = (o.2.valueD env).inner (x.2.rate point rates)) inputs rs)
    (hus : List.Forall₂ (fun x v => x.2.rate point rates = v) inputs us) :
    (inputs.map φ).sum = Dense.innerSum (rs.map (·.2.valueD env)) us := by
  induction hrs generalizing us with
  | nil =>
    cases hus
    rfl
  | cons hx _ ih =>
    cases hus with
    | cons hv hus =>
      rw [List.map_cons, List.sum_cons, hx, ih hus, hv]
      rfl

/-- The results after a sweep are adjoints, provided that their operands fit. -/
theorem Swept.adjoint {w : List (Argument R)} {t : Adjoints R} (h : f.Swept args w env l t)
    (hf : f.NumberedBelow s) (hord : Ordered l)
    (hmem : ∀ x, x ∈ l ↔ Expr.Reachable (f.outputs.map (·.2)) x) {tag : String}
    {rs : List (String × Expr R)}
    (hrs : List.Forall₂ (ReverseResult env (f.binding args) t tag) f.inputs rs)
    (hchecked : ∀ o ∈ rs, o.2.Checked) : f.Adjoint args w env tag rs := by
  refine ⟨?_, fun u hu => ?_⟩
  · refine ((List.forall₂_and_left _ _).2 ⟨hchecked, hrs.flip⟩).flip.imp fun x o ho => ?_
    exact ⟨ho.2.name, ho.2.value ho.1⟩
  · have hsymbols : Adjoints.SymbolsFit l t := by
      intro e he hs bar hbar
      obtain ⟨x, hx, rfl⟩ := hf.symbol e (f.mem_nodes_of_reachable ((hmem e).1 he)) hs
      obtain ⟨o, ho, hresult⟩ := Except.forall₂_exists_right hrs x hx
      exact hresult.eq bar hbar ▸ hchecked o ho
    have hrates : List.Forall₂ (fun x v => x.2.rate (f.binding args) (f.binding u) = v) f.inputs
        (u.map (·.toDense)) := by
      rw [List.forall₂_map_right_iff, List.forall₂_iff_zip]
      refine ⟨(length_of_shapes hu).symm, fun {x a} hp => ?_⟩
      rw [Expr.rate_of_isSymbol _ _ (f.named.symbols x (List.of_mem_zip hp).1)]
      exact f.binding_of_mem_zip hp
    calc Dense.innerSum (w.map (·.toDense)) (f.outputs.map (·.2.rate (f.binding args) (f.binding u)))
        = ((l.filter Expr.isSymbol).map (Adjoints.pairing env (f.binding args) (f.binding u) t)).sum :=
          h.total u hu hsymbols
      _ = (f.inputs.map (Adjoints.pairing env (f.binding args) (f.binding u) t ·.2)).sum :=
          sum_inputs_eq hf hord hmem fun x hx hxl => Adjoints.pairing_of_none (h.unused x hx hxl)
      _ = Dense.innerSum (rs.map (·.2.valueD env)) (u.map (·.toDense)) :=
          sum_eq_innerSum (hrs.imp fun x o ho => ho.pairing (f.binding u)) hrates

/-- The results of a direction are adjoints, provided that their operands fit. -/
theorem returns_reverseResults (hf : f.NumberedBelow s) (hv : f.eval args = .ok values)
    {w : List (Argument R)} (hw : w.map (·.shape) = f.outputShapes)
    (henv : ∀ e ∈ nodesOf f.inputs, env e.id = f.binding args e.id) {direction : Nat}
    {seeds : List (String × Expr R)}
    (hseeds : List.Forall₂ (IsSeed (directionTag "adj" direction)) f.outputs seeds)
    (hbind : ∀ p ∈ seeds.zip w, env p.1.2.id = p.2.toDense) :
    (f.reverseResults (Expr.topologicalOrder (f.outputs.map (·.2))) direction seeds).Returns fun rs =>
      (∀ o ∈ rs, o.2.Checked) → f.Adjoint args w env (directionTag "adj" direction) rs := by
  obtain ⟨l, hl, hord, hmem⟩ := Expr.topologicalOrder_spec hf.isDag
  unfold reverseResults
  rw [hl, List.reverse_reverse]
  refine returns_bind (returns_swept hf hv hw henv hseeds hbind hord hmem) fun start hstart => ?_
  refine returns_bind hstart fun t ht => ?_
  have hresult (x) (hx : x ∈ f.inputs) := returns_reverseResult (x := x) (f.binding args)
    (directionTag "adj" direction) (fun bar (hbar : t[x.2.id]? = some bar) hc => by
      by_cases hxl : x.2 ∈ l
      · exact ht.sound x.2 hxl bar hbar hc
      · rw [ht.unused x hx hxl] at hbar
        cases hbar)
  exact (returns_mapM hresult).imp fun rs hrs hchecked => ht.adjoint hf hord hmem hrs hchecked

/-- What each direction adds, where its seeds have their arguments as their values. -/
theorem reverseAdded_values (hf : f.NumberedBelow s) (hv : f.eval args = .ok values)
    {env : Nat → Dense R} (henv : ∀ e ∈ nodesOf f.inputs, env e.id = f.binding args e.id) (n : Nat) :
    List.Forall₂ (fun d r => ∀ w : List (Argument R), w.map (·.shape) = f.outputShapes →
        (∀ p ∈ r.1.zip w, env p.1.2.id = p.2.toDense) → (∀ o ∈ r.2, o.2.Checked) →
        f.Adjoint args w env (directionTag "adj" d) r.2)
      (List.range n) ((f.reverseAdded n).run s).1 := by
  have hdirection : ∀ d ∈ List.range n, (f.reverseDirection
      (Expr.topologicalOrder (f.outputs.map (·.2))) d).Returns fun r =>
        ∀ w : List (Argument R), w.map (·.shape) = f.outputShapes →
          (∀ p ∈ r.1.zip w, env p.1.2.id = p.2.toDense) → (∀ o ∈ r.2, o.2.Checked) →
          f.Adjoint args w env (directionTag "adj" d) r.2 := fun d _ m w hw hbind hchecked =>
    returns_reverseResults hf hv hw henv (returns_newSeeds _ _ m) hbind _ hchecked
  exact returns_mapM hdirection s

/-- The additional outputs of a reverse derivative have the shapes of the inputs, and pair with rates of
change of the inputs as the weights do with those of the outputs. -/
theorem reverse_values (hf : f.NumberedBelow s) {n s' : Nat} {h : Func R}
    (hh : (f.reverse n).run.run s = (.ok h, s')) (hv : f.eval args = .ok values)
    {ws : List (List (Argument R))} (hn : ws.length = n) (hws : ∀ w ∈ ws, w.map (·.shape) = f.outputShapes) :
    ∃ out, h.eval (args ++ ws.flatten) = .ok out ∧ ∀ d w, ws[d]? = some w →
      ∃ dxs, List.Forall₂ (fun x z => h.output? out (directionTag "adj" d ++ x.1) = some z ∧ z.shape = x.2.shape)
          f.inputs dxs ∧
        ∀ u, u.map (·.shape) = f.inputShapes →
          Dense.innerSum (w.map (·.toDense)) (f.outputs.map (·.2.rate (f.binding args) (f.binding u))) =
            Dense.innerSum dxs (u.map (·.toDense)) := by
  rw [run_reverse] at hh
  obtain ⟨hmake, -⟩ := Prod.mk.inj hh
  obtain ⟨S, hext, hadded⟩ := exists_extension_reverse (F := False) (R := fun _ => True) hf
    (fun _ _ => trivial) (fun h => h.elim) (fun h => h.elim) n
  obtain ⟨-, hi, ho⟩ := make_eq_ok hmake
  have hfit := fitSeeds_of_shapes hadded hn hws
  have hargs := shapes_of_eval hv
  have henv : ∀ e ∈ nodesOf f.inputs, h.binding (args ++ ws.flatten) e.id = f.binding args e.id :=
    fun e he => binding_extended hi hargs he ws.flatten
  -- the operands fit in the function that exists, whatever the derivative has created
  have hchecked {d : Nat} {r : Added R} (hr : ((f.reverseAdded n).run s).1[d]? = some r) :
      ∀ o ∈ r.2, o.2.Checked := fun o hmem x hx => by
    have hnumbered := hext.numberedBelow hmake
    have hout : o ∈ h.outputs := by
      rw [ho]
      exact List.mem_append_right _ (List.mem_flatMap.2 ⟨r, List.mem_of_getElem? hr, hmem⟩)
    exact hnumbered.check x (hnumbered.graph.below (h.output_mem_nodes hout) hx)
  have hdirection : ∀ d w, ws[d]? = some w → ∃ r, ((f.reverseAdded n).run s).1[d]? = some r ∧
      f.Adjoint args w (h.binding (args ++ ws.flatten)) (directionTag "adj" d) r.2 := by
    intro d w hw
    obtain ⟨r, hr, hvalues⟩ := exists_getElem?_of_range (reverseAdded_values hf hv henv n)
      (hn ▸ (List.getElem?_eq_some_iff.1 hw).1)
    exact ⟨r, hr, hvalues w (hws w (List.mem_of_getElem? hw)) (fun p hp =>
      binding_seed hi hargs (hfit.mem_zip hr hw hp)) (hchecked hr)⟩
  obtain ⟨out, hout, hresults⟩ := hext.exists_eval hf hmake hv hfit fun d r w hr hw o hmem => by
    obtain ⟨r', hr', hadjoint⟩ := hdirection d w hw
    rw [hr] at hr'
    cases hr'
    obtain ⟨x, -, -, hx, -⟩ := Except.forall₂_exists_right hadjoint.values.flip o hmem
    exact ⟨_, hx.value⟩
  refine ⟨out, hout, fun d w hw => ?_⟩
  obtain ⟨r, hr, hadjoint⟩ := hdirection d w hw
  refine ⟨_, List.forall₂_map_right_iff.2 ?_, hadjoint.pairing⟩
  refine ((List.forall₂_and_left _ _).2 ⟨fun o ho => ho, hadjoint.values.flip⟩).flip.imp fun x o ho => ?_
  obtain ⟨hmem, hname, hcomputes, hshape⟩ := ho
  exact ⟨hname ▸ hresults d r hr o hmem _ hcomputes.value, hshape⟩

end Value

/-! ## Forward and reverse derivatives -/

section Exact

variable {K : Type} [ExactScalar K] {f : Func K} {s : Nat} {args : List (Argument K)}
  {values : List (Dense K)}

/-- In exact arithmetic a forward and a reverse derivative can both be evaluated wherever the function
can, for all seeds, and are adjoint to each other: the weights of the outputs in a reverse direction pair
with the rates of change of the outputs in a forward direction as the additional outputs for the reverse
direction do with the seeds of the forward direction. -/
theorem reverse_adjoint {n m s₁ s₂ s₃ : Nat} {g h : Func K} (hf : f.NumberedBelow s)
    (hg : (f.forward n).run.run s = (.ok g, s₁)) (hf' : f.NumberedBelow s₂)
    (hh : (f.reverse m).run.run s₂ = (.ok h, s₃)) (hv : f.eval args = .ok values)
    {us ws : List (List (Argument K))} (hn : us.length = n)
    (hus : ∀ u ∈ us, u.map (·.shape) = f.inputShapes) (hm : ws.length = m)
    (hws : ∀ w ∈ ws, w.map (·.shape) = f.outputShapes) :
    g.inputNames = f.inputNames ++
        (List.range n).flatMap (fun d : Nat => f.inputNames.map (s!"fwd{d}_" ++ ·)) ∧
      h.inputNames = f.inputNames ++
        (List.range m).flatMap (fun e : Nat => f.outputNames.map (s!"adj{e}_" ++ ·)) ∧
      ∃ out out', g.eval (args ++ us.flatten) = .ok out ∧ h.eval (args ++ ws.flatten) = .ok out' ∧
        ∀ (d e : Nat) u w, us[d]? = some u → ws[e]? = some w →
          ∃ dys dxs, List.Forall₂ (fun name dy => g.output? out (s!"fwd{d}_" ++ name) = some dy)
              f.outputNames dys ∧
            List.Forall₂ (fun name dx => h.output? out' (s!"adj{e}_" ++ name) = some dx)
              f.inputNames dxs ∧
            dys.map (·.shape) = f.outputShapes ∧ dxs.map (·.shape) = f.inputShapes ∧
            Dense.innerSum (w.map (·.toDense)) dys = Dense.innerSum dxs (u.map (·.toDense)) := by
  obtain ⟨out, hout, hrates⟩ := forward_values hf hg hv hn hus
  obtain ⟨out', hout', hadjoints⟩ := reverse_values hf' hh hv hm hws
  refine ⟨?_, ?_, out, out', hout, hout', fun d e u w hu hw => ?_⟩
  · exact (names_forward hf hg).1
  · exact (names_reverse hf' hh).1
  · obtain ⟨dxs, hdxs, hpairing⟩ := hadjoints e w hw
    have hu' := hus u (List.mem_of_getElem? hu)
    refine ⟨f.outputs.map (·.2.rate (f.binding args) (f.binding u)), dxs, ?_, ?_, ?_, ?_, hpairing u hu'⟩
    · rw [outputNames, List.forall₂_map_left_iff, List.forall₂_map_right_iff, List.forall₂_same]
      exact hrates d u hu
    · rw [inputNames, List.forall₂_map_left_iff]
      exact hdxs.imp fun x z hz => hz.1
    · rw [List.map_map]
      refine List.map_congr_left fun y hy => ?_
      have heval := hf.evaluated hv (f.reachable_output hy)
      exact (heval.shape_rate (hf.bound hu' (f.output_mem_nodes hy))).trans heval.shape_valueD
    · rw [inputShapes, ← List.forall₂_eq_eq_eq, List.forall₂_map_left_iff, List.forall₂_map_right_iff]
      exact hdxs.flip.imp fun z x hz => hz.2

/-- The weight 5 pairs with the rate of change of the square as its adjoint does with the rate 1. -/
theorem reverse_square : ∃ (f g h : Func ℚ) (s s' : Nat), f.NumberedBelow 2 ∧
    (f.forward 1).run.run 2 = (.ok g, s) ∧ (f.reverse 1).run.run 2 = (.ok h, s') ∧
    (∃ values, f.eval [.scalar 3] = .ok values) ∧
    ∃ out out', g.eval [.scalar 3, .scalar 1] = .ok out ∧ h.eval [.scalar 3, .scalar 5] = .ok out' ∧
      ∃ dy dx, g.output? out "fwd0_y" = some dy ∧ h.output? out' "adj0_a" = some dx ∧
        (Dense.ofScalar 5).inner dy = dx.inner (.ofScalar 1) := by
  obtain ⟨f, hi, ho, hf, hshape, values, hv⟩ := exists_square
  obtain ⟨g, s, hg⟩ := (exists_forward_iff hf 1).2 fun d hd => by
    obtain rfl : d = 0 := by omega
    simp only [inputNames, outputNames, hi, ho]
    decide
  have hentries : ∀ e ∈ f.nodes, e.shape.HasEntries := fun e he => hshape e he ▸ Nat.one_ne_zero
  obtain ⟨h, s', hh⟩ := (exists_reverse_iff hf hentries 1).2 fun d hd => by
    obtain rfl : d = 0 := by omega
    simp only [inputNames, outputNames, hi, ho]
    decide
  have hn (x : ℚ) : ([[.scalar x]] : List (List (Argument ℚ))).length = 1 := rfl
  obtain ⟨-, -, out, out', hout, hout', hpairing⟩ := reverse_adjoint hf hg hf hh hv (hn 1) (fun u hu => by
    rw [List.mem_singleton.1 hu, inputShapes, hi]
    rfl) (hn 5) fun w hw => by
    rw [List.mem_singleton.1 hw, outputShapes, ho]
    rfl
  obtain ⟨dys, dxs, hdys, hdxs, -, -, hsum⟩ := hpairing 0 0 _ _ rfl rfl
  have hy : f.outputNames = ["y"] := by rw [outputNames, ho]; rfl
  have hx : f.inputNames = ["a"] := by rw [inputNames, hi]; rfl
  rw [hy] at hdys
  rw [hx] at hdxs
  cases hdys with
  | cons hdy hnil =>
    cases hnil
    cases hdxs with
    | cons hdx hnil =>
      cases hnil
      refine ⟨f, g, h, s, s', hf, hg, hh, ⟨values, hv⟩, out, out', hout, hout', _, _, hdy, hdx, ?_⟩
      exact (add_zero _).symm.trans (hsum.trans (add_zero _))

end Exact

end Func

end Lyapunov
