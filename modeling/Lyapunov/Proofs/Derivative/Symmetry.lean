/-
The two mixed second derivatives agree. The reverse derivative of a forward derivative and the forward
derivative of a reverse derivative both give matrices that pair with directions as the weights do with the
second rates of change of the outputs. There is one list of such matrices only, and in the second rates of
change the order of the directions does not matter.
-/
import Lyapunov.Proofs.Derivative.Mixed

namespace Lyapunov

open Build

/-! ## Derivatives in one direction -/

theorem forall₂_range_one {β : Type} {Q : Nat → β → Prop} {r : β} :
    List.Forall₂ Q (List.range 1) [r] ↔ Q 0 r := by
  rw [List.range_one, List.forall₂_cons, and_iff_left .nil]

theorem tagged_one (word : String) (names : List String) :
    tagged word 1 names = names.map (directionTag word 0 ++ ·) := List.append_nil _

namespace Func

section Single

variable {α : Type} [Scalar α] {f g : Func α} {s s' : Nat} {r : Added α}

/-- The function `g` has the inputs and outputs of `f`, and the seeds and results of one direction. -/
structure Single (f g : Func α) (s : Nat) (r : Added α) : Prop where
  numbered : g.NumberedBelow s
  inputs : g.inputs = f.inputs ++ r.1
  outputs : g.outputs = f.outputs ++ r.2

omit [Scalar α] in
theorem exists_single {F : Prop} {R : Shape → Prop} {S : Set (Expr α)} {tag : Nat → String}
    {targets results : List (String × Expr α)} {rs : List (Added α)} {name : String}
    (hext : Extension F R f s S (rs.flatMap (·.1)) (rs.flatMap (·.2)))
    (hadded : Directed F S tag targets results (List.range 1) rs)
    (hg : make name (f.inputs ++ rs.flatMap (·.1)) (f.outputs ++ rs.flatMap (·.2)) = .ok g) :
    ∃ r, rs = [r] ∧ f.Single g s r := by
  have hnumbered := hext.numberedBelow hg
  obtain ⟨-, hi, ho⟩ := make_eq_ok hg
  obtain ⟨r, rfl⟩ := List.length_eq_one_iff.1 hadded.length_eq.symm
  rw [List.flatMap_singleton] at hi ho
  exact ⟨r, rfl, hnumbered, hi, ho⟩

theorem exists_single_forward (hf : f.NumberedBelow s)
    (hg : (f.forward 1).run.run s = (.ok g, s')) :
    ∃ r, ((f.forwardAdded 1).run s).1 = [r] ∧ f.Single g s' r := by
  rw [run_forward] at hg
  obtain ⟨hmake, rfl⟩ := Prod.mk.inj hg
  obtain ⟨S, hext, hadded⟩ := exists_extension_forward (F := False) (R := fun _ => True) hf
    (fun h => h.elim) 1
  exact exists_single hext hadded hmake

theorem exists_single_reverse (hf : f.NumberedBelow s)
    (hg : (f.reverse 1).run.run s = (.ok g, s')) :
    ∃ r, ((f.reverseAdded 1).run s).1 = [r] ∧ f.Single g s' r := by
  rw [run_reverse] at hg
  obtain ⟨hmake, rfl⟩ := Prod.mk.inj hg
  obtain ⟨S, hext, hadded⟩ := exists_extension_reverse (F := False) (R := fun _ => True) hf
    (fun _ _ => trivial) (fun h => h.elim) (fun h => h.elim) 1
  exact exists_single hext hadded hmake

/-- Where the function with the direction has a value, the results are evaluated. -/
theorem Single.evaluated (h : f.Single g s r) {args : List (Argument α)} {out : List (Dense α)}
    (hout : g.eval args = .ok out) : ∀ o ∈ r.2, o.2.Evaluated (g.binding args) := fun _ ho =>
  h.numbered.evaluated hout (g.reachable_output (h.outputs ▸ List.mem_append_right _ ho))

theorem Single.bound (h : f.Single g s r) {args : List (Argument α)}
    (hargs : args.map (·.shape) = g.inputShapes) : ∀ o ∈ r.2, o.2.Bound (g.binding args) := fun _ ho =>
  h.numbered.bound hargs (g.output_mem_nodes (h.outputs ▸ List.mem_append_right _ ho))

end Single

variable {K : Type} [ExactScalar K] {f g h : Func K} {s s' t t' : Nat} {args u v w dv z z' : List (Argument K)}
  {values : List (Dense K)}

/-- The values of a forward derivative in one direction. -/
theorem forward_values_one (hf : f.NumberedBelow s) (hg : (f.forward 1).run.run s = (.ok g, s'))
    (hv : f.eval args = .ok values) (hu : u.map (·.shape) = f.inputShapes) :
    ∃ out, g.eval (args ++ u) = .ok out ∧ ∀ y ∈ f.outputs,
      g.output? out ("fwd0_" ++ y.1) = some (y.2.rate (f.binding args) (f.binding u)) := by
  obtain ⟨out, hout, hrates⟩ := forward_values hf hg hv (List.length_singleton (a := u)) (by simpa using hu)
  rw [List.flatten_singleton] at hout
  exact ⟨out, hout, hrates 0 u rfl⟩

/-- The values of a reverse derivative in one direction. -/
theorem reverse_values_one (hf : f.NumberedBelow s) (hg : (f.reverse 1).run.run s = (.ok g, s'))
    (hv : f.eval args = .ok values) (hw : w.map (·.shape) = f.outputShapes) :
    ∃ out dxs, g.eval (args ++ w) = .ok out ∧
      f.inputNames.map (fun x => g.output? out ("adj0_" ++ x)) = dxs.map some ∧
      dxs.map (·.shape) = f.inputShapes ∧ ∀ u, u.map (·.shape) = f.inputShapes →
        Dense.innerSum (w.map (·.toDense)) (f.outputs.map (·.2.rate (f.binding args) (f.binding u))) =
          Dense.innerSum dxs (u.map (·.toDense)) := by
  obtain ⟨out, hout, hadjoint⟩ := reverse_values hf hg hv (List.length_singleton (a := w))
    (by simpa using hw)
  rw [List.flatten_singleton] at hout
  obtain ⟨dxs, hdxs, hpairing⟩ := hadjoint 0 w rfl
  obtain ⟨hnames, hshapes⟩ := map_output?_eq hdxs
  exact ⟨out, dxs, hout, hnames, hshapes, hpairing⟩

/-! ## Second adjoints -/

omit [ExactScalar K] in
theorem shapes_of_zeros [Zero K] [Add K] {ss : List Shape} (hz : z.map (·.toDense) = ss.map .zero) :
    z.map (·.shape) = ss := by
  rw [map_shape_toDense hz, List.map_map]
  exact List.map_id _

/-- Matrices that pair with directions as the weights do with the second rates of change of the outputs,
in the direction `u` and a second one, which may change as well. -/
structure SecondAdjoint (f : Func K) (args u w : List (Argument K)) (dxs axs : List (Dense K)) : Prop where
  shapes : dxs.map (·.shape) = f.inputShapes
  shapes' : axs.map (·.shape) = f.inputShapes
  pairing : ∀ v dv : List (Argument K), v.map (·.shape) = f.inputShapes → dv.map (·.shape) = f.inputShapes →
    Dense.innerSum (w.map (·.toDense)) (f.mixedRates args u v dv) =
      Dense.innerSum dxs (v.map (·.toDense)) + Dense.innerSum axs (dv.map (·.toDense))

/-- There are no two such lists. -/
theorem SecondAdjoint.unique {dxs axs dxs' axs' : List (Dense K)} (h : f.SecondAdjoint args u w dxs axs)
    (h' : f.SecondAdjoint args u w dxs' axs') : dxs = dxs' ∧ axs = axs' := by
  have heq : dxs ++ axs = dxs' ++ axs' := by
    refine eq_of_innerSum_toDense ?_ fun x hx => ?_
    · rw [List.map_append, List.map_append, h.shapes, h.shapes', h'.shapes, h'.shapes']
    · rw [List.map_append, h.shapes, h.shapes'] at hx
      obtain ⟨v, dv, rfl, hv, hdv⟩ := List.map_eq_append_iff.1 hx
      have hlen {ds : List (Dense K)} (hds : ds.map (·.shape) = f.inputShapes) :
          ds.length = (v.map (·.toDense)).length := by
        rw [List.length_map, ← List.length_map (·.shape), hds, ← hv, List.length_map]
      rw [List.map_append, Dense.innerSum_append (hlen h.shapes), Dense.innerSum_append (hlen h'.shapes),
        ← h.pairing v dv hv hdv, ← h'.pairing v dv hv hdv]
  refine List.append_inj heq ?_
  rw [← List.length_map (·.shape), h.shapes, ← h'.shapes, List.length_map]

/-! ## The reverse derivative of a forward derivative -/

/-- The rates of change of the outputs of a forward derivative. -/
theorem rates_forward (hf : f.NumberedBelow s) (hg : (f.forward 1).run.run s = (.ok g, s'))
    (hv : f.eval args = .ok values) (hu : u.map (·.shape) = f.inputShapes)
    (hvs : v.map (·.shape) = f.inputShapes) (hdv : dv.map (·.shape) = f.inputShapes) :
    g.outputs.map (·.2.rate (g.binding (args ++ u)) (g.binding (v ++ dv))) =
      f.outputs.map (·.2.rate (f.binding args) (f.binding v)) ++ f.mixedRates args u v dv := by
  obtain ⟨r, hr, hsingle⟩ := exists_single_forward hf hg
  have hargs := shapes_of_eval hv
  have henv : ∀ e ∈ nodesOf f.inputs, g.binding (args ++ u) e.id = f.binding args e.id :=
    fun e he => binding_extended hsingle.inputs hargs he u
  have hdenv : ∀ e ∈ nodesOf f.inputs, g.binding (v ++ dv) e.id = f.binding v e.id :=
    fun e he => binding_extended hsingle.inputs hvs he dv
  rw [hsingle.outputs, List.map_append]
  congr 1
  · refine List.map_congr_left fun y hy => Expr.rate_congr fun x hx hs => ?_
    have hinput := hf.symbol x (hf.graph.below (f.output_mem_nodes hy) hx) hs
    exact ⟨henv x hinput, hdenv x hinput⟩
  · obtain ⟨out, hout, -⟩ := forward_values_one hf hg hv hu
    have hshapes : (v ++ dv).map (·.shape) = g.inputShapes := by
      rw [← shapes_of_eval hout, List.map_append, List.map_append, hvs, hdv, hargs, hu]
    have hadded := forwardAdded_rates hf hv hvs henv hdenv 1
    rw [hr, forall₂_range_one] at hadded
    exact hadded u dv hu hdv (fun p hp => binding_seed hsingle.inputs hargs hp)
      (fun p hp => binding_seed hsingle.inputs hvs hp)
      fun o ho => ⟨hsingle.evaluated hout o ho, hsingle.bound hshapes o ho⟩

/-- The reverse derivative of a forward derivative gives second adjoints. -/
theorem secondAdjoint_forward_reverse (hf : f.NumberedBelow s)
    (hg : (f.forward 1).run.run s = (.ok g, s')) (hle : s' ≤ t)
    (hh : (g.reverse 1).run.run t = (.ok h, t')) (hv : f.eval args = .ok values)
    (hu : u.map (·.shape) = f.inputShapes) (hw : w.map (·.shape) = f.outputShapes)
    (hz : z.map (·.toDense) = f.outputShapes.map .zero) :
    ∃ out dxs axs, h.eval (args ++ u ++ (z ++ w)) = .ok out ∧ f.SecondAdjoint args u w dxs axs ∧
      f.inputNames.map (fun x => h.output? out ("adj0_" ++ x)) = dxs.map some ∧
      f.inputNames.map (fun x => h.output? out ("adj0_" ++ ("fwd0_" ++ x))) = axs.map some := by
  obtain ⟨r, -, hsingle⟩ := exists_single_forward hf hg
  have hder := hf.isDerivative_forward hg
  have hgin : g.inputShapes = f.inputShapes ++ f.inputShapes := by
    simpa using hder.inputShapes
  have hgout : (z ++ w).map (·.shape) = g.outputShapes := by
    simpa [shapes_of_zeros hz, hw] using hder.outputShapes.symm
  obtain ⟨gvalues, hgv, -⟩ := forward_values_one hf hg hv hu
  obtain ⟨out, ds, hout, hnames, hshapes, hpairing⟩ :=
    reverse_values_one (hsingle.numbered.mono hle) hh hgv hgout
  rw [hder.names.inputs, List.map_append] at hnames
  obtain ⟨dxs, axs, rfl, hdxs, haxs⟩ := List.map_eq_append_iff.1 hnames.symm
  have hlen : dxs.length = f.inputShapes.length := by
    simpa [inputNames, inputShapes] using congrArg List.length hdxs
  rw [hgin, List.map_append] at hshapes
  obtain ⟨hdx, hax⟩ := List.append_inj hshapes (by rw [List.length_map, hlen])
  refine ⟨out, dxs, axs, hout, ⟨hdx, hax, fun v dv hvs hdv => ?_⟩, hdxs.symm, ?_⟩
  · have hpair := hpairing (v ++ dv) (by rw [List.map_append, hvs, hdv, hgin])
    rw [rates_forward hf hg hv hu hvs hdv, List.map_append, List.map_append, hz,
      Dense.innerSum_append, Dense.zeros_innerSum, zero_add, Dense.innerSum_append] at hpair
    · exact hpair
    · rw [hlen, ← hvs, List.length_map, List.length_map]
    · rw [List.length_map, List.length_map, outputShapes, List.length_map]
  · rw [haxs]
    show _ = (tagged "fwd" 1 f.inputNames).map _
    rw [tagged_one, List.map_map]
    rfl

/-! ## The forward derivative of a reverse derivative -/

/-- The results of a reverse derivative are the second matrices of a second adjoint, and their rates of change
are the first ones, if the weights do not change. -/
theorem Single.secondAdjoint (hf : f.NumberedBelow s) {r : Added K}
    (hr : ((f.reverseAdded 1).run s).1 = [r]) (hsingle : f.Single g s' r) (hv : f.eval args = .ok values)
    (hu : u.map (·.shape) = f.inputShapes) (hw : w.map (·.shape) = f.outputShapes)
    (hz : z.map (·.toDense) = f.outputShapes.map .zero) {gout : List (Dense K)}
    (hgout : g.eval (args ++ w) = .ok gout) (hshapes : (u ++ z).map (·.shape) = g.inputShapes) :
    f.SecondAdjoint args u w (r.2.map (·.2.rate (g.binding (args ++ w)) (g.binding (u ++ z))))
      (r.2.map (·.2.valueD (g.binding (args ++ w)))) := by
  have hargs := shapes_of_eval hv
  have henv : ∀ e ∈ nodesOf f.inputs, g.binding (args ++ w) e.id = f.binding args e.id :=
    fun e he => binding_extended hsingle.inputs hargs he w
  have hdenv : ∀ e ∈ nodesOf f.inputs, g.binding (u ++ z) e.id = f.binding u e.id :=
    fun e he => binding_extended hsingle.inputs hu he z
  have hseeds : ∀ p ∈ r.1.zip w, g.binding (args ++ w) p.1.2.id = p.2.toDense :=
    fun p hp => binding_seed hsingle.inputs hargs hp
  have hresults : ∀ o ∈ r.2, o.2.Evaluated (g.binding (args ++ w)) ∧ o.2.Bound (g.binding (u ++ z)) :=
    fun o ho => ⟨hsingle.evaluated hgout o ho, hsingle.bound hshapes o ho⟩
  have hadded := reverseAdded_rates hf hv hu henv hdenv 1
  have hvalues := reverseAdded_values hf hv henv 1
  rw [hr, forall₂_range_one] at hadded hvalues
  have hadjoint := hvalues w hw hseeds fun o ho => (hresults o ho).1.checked
  have hshape : (r.2.map (·.2.valueD (g.binding (args ++ w)))).map (·.shape) = f.inputShapes := by
    rw [List.map_map, inputShapes, ← List.forall₂_eq_eq_eq, List.forall₂_map_left_iff,
      List.forall₂_map_right_iff]
    exact hadjoint.values.flip.imp fun o x ho => ho.2.2
  refine ⟨(shapes_rate hresults).trans hshape, hshape, fun v dv hvs hdv => ?_⟩
  have hpair := hadded w z hw (shapes_of_zeros hz) hseeds (fun p hp => binding_seed hsingle.inputs hu hp)
    hresults v dv hvs hdv
  rw [hz, Dense.zeros_innerSum, add_zero, add_comm] at hpair
  rw [mixedRates_comm hf hv hu hvs]
  exact hpair

/-- The forward derivative of a reverse derivative gives second adjoints. -/
theorem secondAdjoint_reverse_forward (hf : f.NumberedBelow s)
    (hg : (f.reverse 1).run.run s = (.ok g, s')) (hle : s' ≤ t)
    (hh : (g.forward 1).run.run t = (.ok h, t')) (hv : f.eval args = .ok values)
    (hu : u.map (·.shape) = f.inputShapes) (hw : w.map (·.shape) = f.outputShapes)
    (hz : z.map (·.toDense) = f.outputShapes.map .zero) :
    ∃ out dxs axs, h.eval (args ++ w ++ (u ++ z)) = .ok out ∧ f.SecondAdjoint args u w dxs axs ∧
      f.inputNames.map (fun x => h.output? out ("fwd0_" ++ ("adj0_" ++ x))) = dxs.map some ∧
      f.inputNames.map (fun x => h.output? out ("adj0_" ++ x)) = axs.map some := by
  obtain ⟨r, hr, hsingle⟩ := exists_single_reverse hf hg
  have hgn := hsingle.numbered.mono hle
  obtain ⟨gout, -, hgout, -⟩ := reverse_values_one hf hg hv hw
  have hshapes : (u ++ z).map (·.shape) = g.inputShapes := by
    rw [← shapes_of_eval hgout, List.map_append, List.map_append, hu, shapes_of_zeros hz, hw,
      shapes_of_eval hv]
  obtain ⟨out, hout, hrates⟩ := forward_values_one hgn hh hgout hshapes
  have hmem : ∀ o ∈ r.2, o ∈ g.outputs := fun o ho => hsingle.outputs ▸ List.mem_append_right _ ho
  -- the results stand under the names of the inputs with a tag in front
  have hnames : r.2.map (·.1) = f.inputNames.map ("adj0_" ++ ·) := by
    have hout := (names_reverse hf hg).2
    rw [outputNames, hsingle.outputs, List.map_append, tagged_one] at hout
    exact List.append_cancel_left hout
  have hnamed (φ : String → Option (Dense K)) :
      f.inputNames.map (fun x => φ ("adj0_" ++ x)) = r.2.map (φ ·.1) := by
    have hmap := congrArg (List.map φ) hnames.symm
    rwa [List.map_map, List.map_map] at hmap
  refine ⟨out, _, _, hout, hsingle.secondAdjoint hf hr hv hu hw hz hgout hshapes, ?_, ?_⟩
  · rw [hnamed fun name => h.output? out ("fwd0_" ++ name), List.map_map]
    exact List.map_congr_left fun o ho => hrates o (hmem o ho)
  · rw [hnamed (h.output? out), List.map_map]
    refine List.map_congr_left fun o ho => ?_
    rw [(hgn.extended_forward hh).output hgout hout o.1 (List.mem_map_of_mem (hmem o ho))]
    exact output?_eq_some hgn.isDag hgout (hmem o ho) (hsingle.evaluated hgout o ho).computes.value

/-! ## Agreement -/

/-- The two mixed second derivatives agree. In exact arithmetic, wherever the function can be evaluated, for
every direction on the inputs and all weights of the outputs: the reverse derivative of a forward derivative,
with the weights for the rates of change and zero for the values, and the forward derivative of a reverse
derivative, with the direction for the inputs and zero for the weights, can both be evaluated, and give each
input the same adjoint and the same rate of change of the adjoint. -/
theorem mixed_derivatives_agree {s₁ s₂ s₃ t₁ t₂ t₃ : Nat} {g' h' : Func K} (hf : f.NumberedBelow s)
    (hg : (f.forward 1).run.run s = (.ok g, s₁)) (hs : s₁ ≤ s₂) (hh : (g.reverse 1).run.run s₂ = (.ok h, s₃))
    (hf' : f.NumberedBelow t) (hg' : (f.reverse 1).run.run t = (.ok g', t₁)) (ht : t₁ ≤ t₂)
    (hh' : (g'.forward 1).run.run t₂ = (.ok h', t₃)) (hv : f.eval args = .ok values)
    (hu : u.map (·.shape) = f.inputShapes) (hw : w.map (·.shape) = f.outputShapes)
    (hz : z.map (·.toDense) = f.outputShapes.map .zero) (hz' : z'.map (·.toDense) = f.outputShapes.map .zero) :
    h.inputNames = f.inputNames ++ f.inputNames.map ("fwd0_" ++ ·) ++
        (f.outputNames ++ f.outputNames.map ("fwd0_" ++ ·)).map ("adj0_" ++ ·) ∧
      h'.inputNames = f.inputNames ++ f.outputNames.map ("adj0_" ++ ·) ++
        (f.inputNames ++ f.outputNames.map ("adj0_" ++ ·)).map ("fwd0_" ++ ·) ∧
      ∃ out out', h.eval (args ++ u ++ (z ++ w)) = .ok out ∧ h'.eval (args ++ w ++ (u ++ z')) = .ok out' ∧
        ∀ x ∈ f.inputNames, ∃ a da : Dense K,
          h.output? out ("adj0_fwd0_" ++ x) = some a ∧ h'.output? out' ("adj0_" ++ x) = some a ∧
          h.output? out ("adj0_" ++ x) = some da ∧ h'.output? out' ("fwd0_adj0_" ++ x) = some da := by
  obtain ⟨r, -, hgn⟩ := exists_single_forward hf hg
  obtain ⟨r', -, hgn'⟩ := exists_single_reverse hf' hg'
  obtain ⟨out, das, as, hout, hsecond, hdas, has⟩ :=
    secondAdjoint_forward_reverse hf hg hs hh hv hu hw hz
  obtain ⟨out', das', as', hout', hsecond', hdas', has'⟩ :=
    secondAdjoint_reverse_forward hf' hg' ht hh' hv hu hw hz'
  obtain ⟨rfl, rfl⟩ := hsecond.unique hsecond'
  refine ⟨?_, ?_, out, out', hout, hout', fun x hx => ?_⟩
  · rw [(names_reverse (hgn.numbered.mono hs) hh).1, tagged_one, (names_forward hf hg).1,
      (names_forward hf hg).2, tagged_one, tagged_one]
    rfl
  · rw [(names_forward (hgn'.numbered.mono ht) hh').1, tagged_one, (names_reverse hf' hg').1, tagged_one]
    rfl
  · -- what stands in the same places under the two names is equal
    have hnamed {φ ψ : String → Option (Dense K)} {ms : List (Dense K)}
        (hφ : f.inputNames.map φ = ms.map some) (hψ : f.inputNames.map ψ = ms.map some) :
        ∃ m, φ x = some m ∧ ψ x = some m := by
      obtain ⟨m, -, hm⟩ := List.mem_map.1 (hφ ▸ List.mem_map_of_mem hx)
      exact ⟨m, hm.symm, (List.map_inj_left.1 (hψ.trans hφ.symm) x hx).trans hm.symm⟩
    obtain ⟨a, ha, ha'⟩ := hnamed has has'
    obtain ⟨da, hda, hda'⟩ := hnamed hdas hdas'
    rw [← String.append_assoc] at ha hda'
    exact ⟨a, da, ha, ha', hda, hda'⟩

/-- The mixed second derivatives of the square, at 3 in the direction 1 with the weight 5. -/
theorem mixed_derivatives_agree_square : ∃ (f g h g' h' : Func ℚ) (s₁ s₂ t₁ t₂ : Nat), f.NumberedBelow 2 ∧
    (f.forward 1).run.run 2 = (.ok g, s₁) ∧ (g.reverse 1).run.run s₁ = (.ok h, s₂) ∧
    (f.reverse 1).run.run 2 = (.ok g', t₁) ∧ (g'.forward 1).run.run t₁ = (.ok h', t₂) ∧
    (∃ values, f.eval [.scalar 3] = .ok values) ∧
    ∃ out out' a da, h.eval [.scalar 3, .scalar 1, .scalar 0, .scalar 5] = .ok out ∧
      h'.eval [.scalar 3, .scalar 5, .scalar 1, .scalar 0] = .ok out' ∧
      h.output? out "adj0_fwd0_a" = some a ∧ h'.output? out' "adj0_a" = some a ∧
      h.output? out "adj0_a" = some da ∧ h'.output? out' "fwd0_adj0_a" = some da := by
  obtain ⟨f, hi, ho, hf, hshape, values, hv⟩ := exists_square
  have hregular : f.Regular 2 := ⟨hf, fun e he => hshape e he ▸ Nat.one_ne_zero⟩
  have huntagged := untagged_square hi ho
  obtain ⟨g, s₁, hg⟩ := hf.exists_forward (huntagged .forward) 1
  obtain ⟨hgr, hgnames⟩ := differentiate_spec hregular (show (f.differentiate .forward 1).run.run 2 = _ from hg)
  obtain ⟨h, s₂, hh⟩ := hgr.numbered.exists_reverse (hgr.numbered.contractible hgr.entries)
    (hgnames.untagged (.inl (by decide)) (huntagged .reverse)) 1
  obtain ⟨g', t₁, hg'⟩ := hf.exists_reverse (hf.contractible hregular.entries) (huntagged .reverse) 1
  obtain ⟨hgr', hgnames'⟩ :=
    differentiate_spec hregular (show (f.differentiate .reverse 1).run.run 2 = _ from hg')
  obtain ⟨h', t₂, hh'⟩ := hgr'.numbered.exists_forward
    (hgnames'.untagged (.inl (by decide)) (huntagged .forward)) 1
  have hin (x : ℚ) : [Argument.scalar x].map (·.shape) = f.inputShapes := by
    rw [inputShapes, hi]
    rfl
  have hout (x : ℚ) : [Argument.scalar x].map (·.shape) = f.outputShapes := by
    rw [outputShapes, ho]
    rfl
  have hzero : [Argument.scalar (0 : ℚ)].map (·.toDense) = f.outputShapes.map .zero := by
    rw [outputShapes, ho]
    rfl
  obtain ⟨-, -, out, out', hevals, hevals', hagree⟩ := mixed_derivatives_agree hf hg le_rfl hh hf hg' le_rfl
    hh' hv (hin 1) (hout 5) hzero hzero
  obtain ⟨a, da, ha⟩ := hagree "a" (by rw [inputNames, hi]; exact List.mem_singleton_self _)
  exact ⟨f, g, h, g', h', s₁, s₂, t₁, t₂, hf, hg, hh, hg', hh', ⟨values, hv⟩, out, out', a, da, hevals,
    hevals', ha⟩

end Func

end Lyapunov
