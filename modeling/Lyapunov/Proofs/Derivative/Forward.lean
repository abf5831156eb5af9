/-
Forward derivatives are derivatives. In exact arithmetic the outputs that a forward derivative adds for
a direction are the epsilon parts of the values that the outputs have over the dual numbers, at the
arguments with the seeds of that direction as their epsilon parts.
-/
import Lyapunov.Proofs.Derivative.Tangent
import Lyapunov.Proofs.Derivative.Extension

namespace Lyapunov

open Build

variable {α : Type}

/-! ## Maps from lists -/

/-- Insertions under different keys. -/
theorem getElem?_foldl_insert {β γ : Type} (key : β → Nat) (value : β → γ) {l : List β}
    (hkeys : (l.map key).Nodup) (m : Std.HashMap Nat γ) :
    (∀ x ∈ l, (l.foldl (fun m x => m.insert (key x) (value x)) m)[key x]? = some (value x)) ∧
      ∀ i, (∀ x ∈ l, key x ≠ i) → (l.foldl (fun m x => m.insert (key x) (value x)) m)[i]? = m[i]? := by
  induction l generalizing m with
  | nil => exact ⟨by simp, fun _ _ => rfl⟩
  | cons y l ih =>
    rw [List.map_cons, List.nodup_cons] at hkeys
    obtain ⟨hmem, hother⟩ := ih hkeys.2 (m.insert (key y) (value y))
    have hnew : ∀ x ∈ l, key x ≠ key y := fun x hx h => hkeys.1 (h ▸ List.mem_map_of_mem hx)
    refine ⟨fun x hx => ?_, fun i hi => ?_⟩
    · rw [List.foldl_cons]
      rcases List.mem_cons.1 hx with rfl | hx
      · rw [hother _ hnew, Std.HashMap.getElem?_insert_self]
      · exact hmem x hx
    · rw [List.foldl_cons, hother i fun x hx => hi x (List.mem_cons_of_mem _ hx),
        Std.HashMap.getElem?_insert, if_neg (by simpa using hi y List.mem_cons_self)]

/-- What holds of all entries of a map and of a new one holds after the insertion. -/
theorem forall_getElem?_insert {β : Type} {P : β → Prop} {m : Std.HashMap Nat β}
    (hm : ∀ i : Nat, ∀ b ∈ m[i]?, P b) (i : Nat) {b : β} (hb : P b) :
    ∀ j : Nat, ∀ c ∈ (m.insert i b)[j]?, P c := by
  intro j c hc
  rw [Std.HashMap.getElem?_insert] at hc
  split at hc
  · cases hc
    exact hb
  · exact hm j c hc

namespace Func

/-! ## The graph -/

section Graph

variable [Scalar α] {f : Func α} {n : Nat}

/-- The tangents at the start: the seed of each input. -/
def startTangents (f : Func α) (seeds : List (String × Expr α)) : Tangents α :=
  (f.inputs.zip seeds).foldl (fun t p => t.insert p.1.2.id p.2.2) ∅

omit [Scalar α] in
theorem getElem?_startTangents (f : Func α) {seeds : List (String × Expr α)}
    (hlen : f.inputs.length = seeds.length) :
    (∀ p ∈ f.inputs.zip seeds, (f.startTangents seeds)[p.1.2.id]? = some p.2.2) ∧
      ∀ i, (∀ p ∈ f.inputs, p.2.id ≠ i) → (f.startTangents seeds)[i]? = none := by
  have hkeys : ((f.inputs.zip seeds).map fun p => p.1.2.id).Nodup := by
    have := f.named.inputIds
    rwa [← List.map_fst_zip hlen.le, List.map_map] at this
  obtain ⟨hmem, hother⟩ := getElem?_foldl_insert _ (fun p => p.2.2) hkeys ∅
  refine ⟨hmem, fun i hi => ?_⟩
  exact (hother i fun p hp => hi p.1 (List.of_mem_zip hp).1).trans Std.HashMap.getElem?_empty

omit [Scalar α] in
/-- The entries at the start are seeds. -/
theorem forall_startTangents (f : Func α) {P : Expr α → Prop} {seeds : List (String × Expr α)}
    (hseeds : ∀ p ∈ seeds, P p.2) : ∀ i : Nat, ∀ e ∈ (f.startTangents seeds)[i]?, P e :=
  List.foldlRecOn (motive := fun t : Tangents α => ∀ i : Nat, ∀ e ∈ t[i]?, P e) _ _
    (fun i e he => by rw [Std.HashMap.getElem?_empty] at he; cases he)
    fun _ ht _ hp => forall_getElem?_insert ht _ (hseeds _ (List.of_mem_zip hp).2)

/-- What a forward derivative in `n` directions adds. -/
def forwardAdded (f : Func α) (n : Nat) : Build (List (Added α)) :=
  (List.range n).mapM (f.forwardDirection (Expr.topologicalOrder (f.outputs.map (·.2))))

theorem run_forward (f : Func α) (n s : Nat) :
    (f.forward n).run.run s =
      (make s!"fwd{n}_{f.name}" (f.inputs ++ ((f.forwardAdded n).run s).1.flatMap (·.1))
        (f.outputs ++ ((f.forwardAdded n).run s).1.flatMap (·.2)), ((f.forwardAdded n).run s).2) := by
  unfold forward
  exact TryBuild.run_bind_ok (TryBuild.run_mapM_liftM _ _ s)

omit [Scalar α] in
/-- The seeds have the shapes of the inputs. -/
theorem fitted_startTangents (hf : f.NumberedBelow n) {F : Prop} {S : Set (Expr α)} {tag : String}
    {seeds : List (String × Expr α)} (hseeds : List.Forall₂ (IsSeed tag) f.inputs seeds)
    (hmem : ∀ p ∈ seeds, p.2 ∈ S) : Fitted F f.nodes S (f.startTangents seeds) := by
  obtain ⟨hstart, hnone⟩ := f.getElem?_startTangents hseeds.length_eq
  intro x hx
  by_cases hinput : ∃ p ∈ f.inputs, p.2.id = x.id
  · obtain ⟨p, hp, hid⟩ := hinput
    obtain ⟨seed, hseed⟩ := exists_mem_zip hseeds.length_eq hp
    rw [← hid, hstart _ hseed, ← hf.graph.unique _ (f.input_mem_nodes hp) x hx hid]
    exact optNode_some ⟨hmem _ (List.of_mem_zip hseed).2, fun _ => (List.forall₂_zip hseeds hseed).shape⟩
  · rw [hnone x.id fun p hp hid => hinput ⟨p, hp, hid⟩]
    exact optNode_none

/-- The results of one direction, given its seeds. -/
def forwardResults (f : Func α) (order : List (Expr α)) (direction : Nat)
    (seeds : List (String × Expr α)) : Build (List (String × Expr α)) := do
  let tangents ← order.foldlM Tangents.step (f.startTangents seeds)
  f.outputs.mapM fun (name, e) =>
    return (directionTag "fwd" direction ++ name, ← orZeros e.shape tangents[e.id]?)

theorem extends_forwardDirection (hf : f.NumberedBelow n) {F : Prop} {R : Shape → Prop}
    (direction : Nat) :
    Extends F R f.nodes f.inputs f.outputs (directionTag "fwd" direction)
      (f.forwardDirection (Expr.topologicalOrder (f.outputs.map (·.2))) direction) := by
  refine extends_newSeeds (k := f.forwardResults _ direction) ?_ fun p hp => f.input_mem_nodes hp
  intro T S seeds hGS hseeds hmem
  refine grows_of_holds fun hfit => ?_
  have hfit' : ∀ e ∈ f.nodes, Fits F R T e := fun e he => hfit e (hGS he)
  refine grows_bind (Tangents.grows_sweep hf.graph hfit' hGS hf.order_mem_nodes
    (fitted_startTangents hf hseeds hmem)) fun S' t _ ht => ?_
  refine grows_mapM (fun S₁ S₂ y r hS hr => ⟨hr.name, hr.node.mono hS⟩) fun y hy S₁ hS₁ => ?_
  have hnode := (ht y.2 (f.output_mem_nodes hy)).mono hS₁
  refine grows_bind (grows_orZeros hnode fun hF => ((hfit' _ (f.output_mem_nodes hy)).check hF).2)
    fun S₂ d _ hd => ?_
  exact grows_pure ⟨rfl, hd⟩

/-- A forward derivative extends the function. -/
theorem exists_extension_forward (hf : f.NumberedBelow n) {F : Prop} {R : Shape → Prop}
    (hR : F → ∀ e ∈ f.nodes, R e.shape) (k : Nat) :
    ∃ S, Extension F R f ((f.forwardAdded k).run n).2 S (((f.forwardAdded k).run n).1.flatMap (·.1))
        (((f.forwardAdded k).run n).1.flatMap (·.2)) ∧
      Directed F S (directionTag "fwd") f.inputs f.outputs (List.range k) ((f.forwardAdded k).run n).1 :=
  exists_extension hf hR (fun d => extends_forwardDirection hf d) (List.range k)

/-- The names of the inputs and outputs of a forward derivative. -/
theorem names_forward (hf : f.NumberedBelow n) {k n' : Nat} {g : Func α}
    (hg : (f.forward k).run.run n = (.ok g, n')) :
    g.inputNames = f.inputNames ++ tagged "fwd" k f.inputNames ∧
      g.outputNames = f.outputNames ++ tagged "fwd" k f.outputNames := by
  rw [run_forward] at hg
  obtain ⟨-, hi, ho⟩ := make_eq_ok (Prod.mk.inj hg).1
  obtain ⟨S, -, hadded⟩ := exists_extension_forward (F := False) (R := fun _ => True) hf
    (fun h => h.elim) k
  simp only [inputNames, outputNames, hi, ho, List.map_append, hadded.seedNames, hadded.resultNames,
    and_self]

/-- A forward derivative exists exactly when none of its names is taken. -/
theorem exists_forward_iff (hf : f.NumberedBelow n) (k : Nat) :
    (∃ g n', (f.forward k).run.run n = (.ok g, n')) ↔
      ∀ d < k, (∀ x ∈ f.inputNames, directionTag "fwd" d ++ x ∉ f.inputNames) ∧
        ∀ x ∈ f.outputNames, directionTag "fwd" d ++ x ∉ f.outputNames := by
  obtain ⟨S, hext, hadded⟩ := exists_extension_forward (F := True) (R := fun _ => True) hf
    (fun _ _ _ => trivial) k
  have hmake := hext.exists_make_iff hadded f.named.inputNames f.named.outputNames s!"fwd{k}_{f.name}"
  refine Iff.trans ?_ hmake
  rw [run_forward]
  exact ⟨fun ⟨g, _, hg⟩ => ⟨g, (Prod.mk.inj hg).1⟩, fun ⟨g, hg⟩ => ⟨g, _, Prod.ext hg rfl⟩⟩

/-- The nodes of a forward derivative have numbers below that of the next node, and shapes like those of
the function. -/
theorem nodes_forward (hf : f.NumberedBelow n) {R : Shape → Prop} (hR : ∀ e ∈ f.nodes, R e.shape)
    {k n' : Nat} {g : Func α} (hg : (f.forward k).run.run n = (.ok g, n')) :
    g.NumberedBelow n' ∧ ∀ e ∈ g.nodes, R e.shape := by
  rw [run_forward] at hg
  obtain ⟨hmake, rfl⟩ := Prod.mk.inj hg
  obtain ⟨S, hext, -⟩ := exists_extension_forward (F := True) hf (fun _ => hR) k
  exact ⟨hext.numberedBelow hmake, fun e he =>
    ((hext.store.holds e (hext.nodes_subset hmake he)).check trivial).2⟩

end Graph

/-! ## The values -/

section Value

variable {R : Type} [LocalScalar R] {f : Func R} {s : Nat} {args u : List (Argument R)}
  {values : List (Dense R)}

/-- The results of a direction are the rates of change of the outputs, where its seeds have the
arguments `u` as their values. -/
theorem returns_forwardResults (hf : f.NumberedBelow s) (hv : f.eval args = .ok values)
    (hu : u.map (·.shape) = f.inputShapes) {env : Nat → Dense R}
    (henv : ∀ e ∈ nodesOf f.inputs, env e.id = f.binding args e.id) {direction : Nat}
    {seeds : List (String × Expr R)}
    (hseeds : List.Forall₂ (IsSeed (directionTag "fwd" direction)) f.inputs seeds)
    (hbind : ∀ p ∈ seeds.zip u, env p.1.2.id = p.2.toDense) :
    (f.forwardResults (Expr.topologicalOrder (f.outputs.map (·.2))) direction seeds).Returns
      (List.Forall₂ (fun y o => o.1 = directionTag "fwd" direction ++ y.1 ∧
        o.2.Computes env (y.2.rate (f.binding args) (f.binding u))) f.outputs) := by
  obtain ⟨l, hl, hord, hmem⟩ := Expr.topologicalOrder_spec hf.isDag
  rw [hl]
  obtain ⟨hstart, hnone⟩ := f.getElem?_startTangents hseeds.length_eq
  have hnode {e} (he : e ∈ l) : e ∈ f.nodes := f.mem_nodes_of_reachable ((hmem e).1 he)
  have hnodes : ∀ e ∈ l, e.Evaluated (f.binding args) ∧ e.Bound (f.binding u) ∧
      ∀ x, Expr.Below x e → x.Computes env (x.valueD (f.binding args)) := fun e he =>
    ⟨hf.evaluated hv ((hmem e).1 he), hf.bound hu (hnode he),
      fun x hx => hf.computes hv henv (((hmem e).1 he).below hx)⟩
  have hsymbol : ∀ e ∈ l, e.isSymbol = true →
      Denotes env (f.startTangents seeds)[e.id]? (e.rate (f.binding args) (f.binding u)) := by
    intro e he hs
    obtain ⟨p, hp, rfl⟩ := hf.symbol e (hnode he) hs
    -- the seed and the argument stand in the place of the input
    obtain ⟨⟨seed, arg⟩, hplace⟩ := exists_mem_zip (m := seeds.zip u)
      (by rw [List.length_zip, ← hseeds.length_eq, length_of_shapes hu, Nat.min_self]) hp
    obtain ⟨hseed, harg, hzip⟩ := mem_zip_zip hplace
    have hisSeed := List.forall₂_zip hseeds hseed
    rw [hstart _ hseed, Expr.rate_of_isSymbol _ _ hs, f.binding_of_mem_zip harg, ← hbind _ hzip]
    refine ⟨Expr.value_of_isSymbol env hisSeed.symbol, ?_⟩
    rw [hisSeed.shape, hbind _ hzip, ← f.binding_of_mem_zip harg]
    exact (hf.bound hu (hnode he) _ (.refl _) hs).symm
  have hother : ∀ e ∈ l, e.isSymbol = false → (f.startTangents seeds)[e.id]? = none := by
    intro e he hs
    refine hnone _ fun p hp hid => ?_
    have := f.named.symbols p hp
    rw [hf.graph.unique _ (f.input_mem_nodes hp) e (hnode he) hid, hs] at this
    cases this
  refine returns_bind (Tangents.returns_sweep hord hnodes hsymbol hother) fun t ht => ?_
  refine returns_mapM fun y hy => ?_
  have hy' := (hmem y.2).2 (f.reachable_output hy)
  have heval := (hnodes _ hy').1
  have hshape : (y.2.rate (f.binding args) (f.binding u)).shape = y.2.shape :=
    (heval.shape_rate (hnodes _ hy').2.1).trans heval.shape_valueD
  refine returns_bind (hshape ▸ returns_orZeros (ht.rate _ hy')) fun d hd => ?_
  exact returns_pure ⟨rfl, hd⟩

/-- What each direction adds, where its seeds have their arguments as their values. -/
theorem forwardAdded_values (hf : f.NumberedBelow s) (hv : f.eval args = .ok values)
    {env : Nat → Dense R} (henv : ∀ e ∈ nodesOf f.inputs, env e.id = f.binding args e.id) (n : Nat) :
    List.Forall₂ (fun d r => ∀ u, u.map (·.shape) = f.inputShapes →
        (∀ p ∈ r.1.zip u, env p.1.2.id = p.2.toDense) →
        List.Forall₂ (fun y o => o.1 = directionTag "fwd" d ++ y.1 ∧
          o.2.Computes env (y.2.rate (f.binding args) (f.binding u))) f.outputs r.2)
      (List.range n) ((f.forwardAdded n).run s).1 := by
  have hdirection : ∀ d ∈ List.range n, (f.forwardDirection
      (Expr.topologicalOrder (f.outputs.map (·.2))) d).Returns fun r =>
        ∀ u, u.map (·.shape) = f.inputShapes → (∀ p ∈ r.1.zip u, env p.1.2.id = p.2.toDense) →
          List.Forall₂ (fun y o => o.1 = directionTag "fwd" d ++ y.1 ∧
            o.2.Computes env (y.2.rate (f.binding args) (f.binding u))) f.outputs r.2 :=
    fun d _ m u hu hbind => returns_forwardResults hf hv hu henv (returns_newSeeds _ _ m) hbind _
  exact returns_mapM hdirection s

/-- The additional outputs of a forward derivative have the rates of change as their values. -/
theorem forward_values (hf : f.NumberedBelow s) {n s' : Nat} {g : Func R}
    (hg : (f.forward n).run.run s = (.ok g, s')) (hv : f.eval args = .ok values)
    {us : List (List (Argument R))} (hn : us.length = n) (hus : ∀ u ∈ us, u.map (·.shape) = f.inputShapes) :
    ∃ out, g.eval (args ++ us.flatten) = .ok out ∧
      ∀ d u, us[d]? = some u → ∀ y ∈ f.outputs,
        g.output? out (directionTag "fwd" d ++ y.1) = some (y.2.rate (f.binding args) (f.binding u)) := by
  rw [run_forward] at hg
  obtain ⟨hmake, -⟩ := Prod.mk.inj hg
  obtain ⟨S, hext, hadded⟩ := exists_extension_forward (F := False) (R := fun _ => True) hf
    (fun h => h.elim) n
  obtain ⟨-, hi, -⟩ := make_eq_ok hmake
  have hfit := fitSeeds_of_shapes hadded hn hus
  have hargs := shapes_of_eval hv
  have henv : ∀ e ∈ nodesOf f.inputs, g.binding (args ++ us.flatten) e.id = f.binding args e.id :=
    fun e he => binding_extended hi hargs he us.flatten
  have hdirection : ∀ d u, us[d]? = some u → ∃ r, ((f.forwardAdded n).run s).1[d]? = some r ∧
      List.Forall₂ (fun y o => o.1 = directionTag "fwd" d ++ y.1 ∧ o.2.Computes
        (g.binding (args ++ us.flatten)) (y.2.rate (f.binding args) (f.binding u))) f.outputs r.2 := by
    intro d u hu
    obtain ⟨r, hr, hvalues⟩ := exists_getElem?_of_range (forwardAdded_values hf hv henv n)
      (hn ▸ (List.getElem?_eq_some_iff.1 hu).1)
    exact ⟨r, hr, hvalues u (hus u (List.mem_of_getElem? hu)) fun p hp =>
      binding_seed hi hargs (hfit.mem_zip hr hu hp)⟩
  obtain ⟨out, hout, hresults⟩ := hext.exists_eval hf hmake hv hfit fun d r u hr hu o hmem => by
    obtain ⟨r', hr', hrates⟩ := hdirection d u hu
    rw [hr] at hr'
    cases hr'
    obtain ⟨y, -, -, hy⟩ := Except.forall₂_exists_right hrates.flip o hmem
    exact ⟨_, hy.value⟩
  refine ⟨out, hout, fun d u hu y hy => ?_⟩
  obtain ⟨r, hr, hrates⟩ := hdirection d u hu
  obtain ⟨o, hmem, hname, hcomputes⟩ := Except.forall₂_exists_right hrates y hy
  exact hname ▸ hresults d r hr o hmem _ hcomputes.value

/-- Where no input changes, no output does. -/
theorem NumberedBelow.rate_zero (hf : f.NumberedBelow s) (hv : f.eval args = .ok values) {u : List (Argument R)}
    (hu : u.map (·.toDense) = f.inputShapes.map .zero) {y : String × Expr R} (hy : y ∈ f.outputs) :
    y.2.rate (f.binding args) (f.binding u) = .zero y.2.shape := by
  have heval := hf.evaluated hv (f.reachable_output hy)
  rw [heval.rate_zero fun x hx hs => ?_, heval.shape_valueD]
  obtain ⟨p, hp, rfl⟩ := hf.symbol x (hf.graph.below (f.output_mem_nodes hy) hx) hs
  obtain ⟨k, hk⟩ := List.mem_iff_getElem?.1 hp
  have hzero := congrArg (·[k]?) hu
  simp only [inputShapes, List.getElem?_map, hk, Option.map_some, Option.map_eq_some_iff] at hzero
  obtain ⟨arg, ha, hzero⟩ := hzero
  rw [f.binding_input hk ha, hzero]

end Value

/-! ## The epsilon parts -/

section Exact

variable {K : Type} [ExactScalar K] {f : Func K} {s : Nat} {args u : List (Argument K)}
  {values : List (Dense K)}

/-- The arguments, with those of the direction `u` as their epsilon parts. -/
def dualBinding (f : Func K) (args u : List (Argument K)) (i : Nat) : Dense (DualNumber K) :=
  .dual (f.binding args i) (f.binding u i)

/-- In exact arithmetic a forward derivative can be evaluated wherever the function can, for all seeds.
The additional output for an output and a direction is the epsilon part of the only value that the
output has over the dual numbers, at the arguments with the seeds of the direction as epsilon parts;
so it depends on no other seeds, and is zero for an output that no seed reaches. -/
theorem forward_spec (hf : f.NumberedBelow s) {n s' : Nat} {g : Func K}
    (hg : (f.forward n).run.run s = (.ok g, s')) (hv : f.eval args = .ok values)
    {us : List (List (Argument K))} (hn : us.length = n) (hus : ∀ u ∈ us, u.map (·.shape) = f.inputShapes) :
    g.inputNames = f.inputNames ++
        (List.range n).flatMap (fun d : Nat => f.inputNames.map (s!"fwd{d}_" ++ ·)) ∧
      ∃ out, g.eval (args ++ us.flatten) = .ok out ∧
        ∀ (d : Nat) u, us[d]? = some u → ∀ y ∈ f.outputs,
          ∃ v, y.2.DualValue (f.dualBinding args u) v ∧
            (∀ w, y.2.DualValue (f.dualBinding args u) w → w = v) ∧
            g.output? out (s!"fwd{d}_" ++ y.1) = some v.ep ∧
            (y.2.seeded = false → v.ep = .zero y.2.shape) ∧
            ∀ us' : List (List (Argument K)), us'.length = n →
              (∀ u ∈ us', u.map (·.shape) = f.inputShapes) → us'[d]? = some u →
              ∀ out', g.eval (args ++ us'.flatten) = .ok out' →
                g.output? out' (s!"fwd{d}_" ++ y.1) = g.output? out (s!"fwd{d}_" ++ y.1) := by
  obtain ⟨out, hout, hrates⟩ := forward_values hf hg hv hn hus
  refine ⟨?_, out, hout, fun d u hu y hy => ?_⟩
  · exact (names_forward hf hg).1
  · have heval := hf.evaluated hv (f.reachable_output hy)
    have hbound := hf.bound (hus u (List.mem_of_getElem? hu)) (f.output_mem_nodes hy)
    have hvalue := heval.dualValue hbound
    have hep := Dense.ep_dual (heval.shape_rate hbound)
    refine ⟨_, hvalue, fun w hw => hw.unique hvalue, ?_, fun hs => ?_, ?_⟩
    · rw [hep]; exact hrates d u hu y hy
    · rw [hep, heval.rate_eq_zero _ hs, heval.shape_valueD]
    · intro us' hn' hus' hu' out' hout'
      obtain ⟨out'', hout'', hrates'⟩ := forward_values hf hg hv hn' hus'
      rw [hout'] at hout''
      cases hout''
      exact (hrates' d u hu' y hy).trans (hrates d u hu y hy).symm

/-- The square changes at 3 at the rate 6. -/
theorem forward_square : ∃ (f g : Func ℚ) (s : Nat), f.NumberedBelow 2 ∧
    (f.forward 1).run.run 2 = (.ok g, s) ∧ (∃ values, f.eval [.scalar 3] = .ok values) ∧
    ∃ out, g.eval [.scalar 3, .scalar 1] = .ok out ∧ g.output? out "fwd0_y" = some (.ofScalar 6) := by
  obtain ⟨f, hi, ho, hf, -, values, hv⟩ := exists_square
  obtain ⟨g, s, hg⟩ := (exists_forward_iff hf 1).2 fun d hd => by
    obtain rfl : d = 0 := by omega
    simp only [inputNames, outputNames, hi, ho]
    decide
  have hlength : ([[.scalar 1]] : List (List (Argument ℚ))).length = 1 := rfl
  obtain ⟨-, out, hout, hrates⟩ := forward_spec hf hg hv hlength fun u hu => by
    rw [List.mem_singleton.1 hu, inputShapes, hi]
    rfl
  obtain ⟨v, hv', hunique, hd, -⟩ := hrates 0 _ rfl ("y", square[1]) (ho ▸ List.mem_singleton_self _)
  refine ⟨f, g, s, hf, hg, ⟨values, hv⟩, out, hout, hd.trans ?_⟩
  have ha (x : ℚ) : f.binding [.scalar x] 0 = .ofScalar x := by
    unfold binding; rw [hi]; rfl
  have hshape : (Dense.ofScalar (1 : ℚ)).shape = (Dense.ofScalar (3 : ℚ)).shape := rfl
  rw [← hunique _ ((Expr.DualValue.symbol 0 "a" .scalar).matmul 1 (.symbol 0 "a" .scalar)), dualBinding,
    ha, ha, Dense.dual_mul hshape hshape, Dense.ep_dual]
  · refine congrArg some (Dense.ext_get rfl rfl fun i j hi hj => ?_)
    obtain rfl : i = 0 := Nat.lt_one_iff.1 hi
    obtain rfl : j = 0 := Nat.lt_one_iff.1 hj
    decide +kernel
  · rfl

end Exact

end Func

end Lyapunov