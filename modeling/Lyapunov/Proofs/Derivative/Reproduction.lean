/-
Derivatives reproduce their functions. The tape of a derivative starts with the instructions of the
function, so that evaluating it runs into every failure of the function and gives its results first. In
exact arithmetic it runs into no other failure.
-/
import Lyapunov.Proofs.Derivative.Agreement
import Lyapunov.Proofs.Derivative.Systems

namespace Lyapunov.Func

variable {α : Type}

/-- The function `g` has the inputs and outputs of `f` and then others, where the further inputs are no
nodes of `f`. -/
structure Prolongs (g f : Func α) : Prop where
  graph : IsGraph g.nodes
  inputs : ∃ seeds, g.inputs = f.inputs ++ seeds ∧ ∀ p ∈ seeds, p.2 ∉ f.nodes
  outputs : ∃ results, g.outputs = f.outputs ++ results

variable {f g : Func α} {s n : Nat} {args seeds : List (Argument α)}

theorem Prolongs.of_extension {F : Prop} {R : Shape → Prop} {S : Set (Expr α)}
    {seeds results : List (String × Expr α)} (h : Extension F R f n S seeds results) {name : String}
    (hg : make name (f.inputs ++ seeds) (f.outputs ++ results) = .ok g) : g.Prolongs f := by
  obtain ⟨-, hi, ho⟩ := make_eq_ok hg
  exact ⟨(h.numberedBelow hg).graph, ⟨seeds, hi, h.fresh.new⟩, results, ho⟩

theorem prolongs_differentiate [Scalar α] (hf : f.NumberedBelow s) {mode : Mode} {s' : Nat}
    (hg : (f.differentiate mode n).run.run s = (.ok g, s')) : g.Prolongs f := by
  obtain ⟨⟨S, hext⟩, -⟩ := exists_extension_differentiate hf mode n
  rw [run_differentiate] at hg
  exact .of_extension hext (Prod.mk.inj hg).1

namespace Prolongs

variable (h : g.Prolongs f)

include h

theorem mem_nodes {e : Expr α} (he : e ∈ f.nodes) : e ∈ g.nodes := by
  obtain ⟨seeds, hi, -⟩ := h.inputs
  obtain ⟨results, ho⟩ := h.outputs
  refine he.mono fun r hr => ?_
  rw [hi, ho, List.map_append, List.map_append]
  rcases List.mem_append.1 hr with hr | hr
  · exact List.mem_append_left _ (List.mem_append_left _ hr)
  · exact List.mem_append_right _ (List.mem_append_left _ hr)

theorem isDag : IsDag (g.outputs.map (·.2)) :=
  h.graph.isDag fun _ hr => .root (List.mem_append_right _ hr)

theorem isDag_self : IsDag (f.outputs.map (·.2)) :=
  h.graph.isDag fun _ hr => h.mem_nodes (.root (List.mem_append_right _ hr))

/-- The tape starts with the instructions of the function. -/
theorem instrs : f.tape.instrs.toList <+: g.tape.instrs.toList := by
  obtain ⟨seeds, hi, hnew⟩ := h.inputs
  obtain ⟨results, ho⟩ := h.outputs
  have htape := g.tape_eq
  rw [hi, ho, List.map_append, List.map_append] at htape
  obtain ⟨more, hmore⟩ := Tape.compile_append h.isDag_self (fun e he _ x hx hid => by
    obtain ⟨p, hp, rfl⟩ := List.mem_map.1 hx
    have hinput : p ∈ g.inputs := by
      rw [hi]
      exact List.mem_append_right _ hp
    have he := f.mem_nodes_of_reachable he
    exact hnew p hp (h.graph.unique _ (g.input_mem_nodes hinput) e (h.mem_nodes he) hid ▸ he)) f.tape_eq htape
  exact ⟨more.toList, by rw [hmore, Array.toList_append]⟩

variable [Scalar α] (hf : f.NumberedBelow s) (hargs : args.map (·.shape) = f.inputShapes)
  (hseeds : (args ++ seeds).map (·.shape) = g.inputShapes)

include hf hargs

/-- The nodes of the function have the values that they have in the function. -/
theorem value_eq {e : Expr α} (he : Expr.Reachable (f.outputs.map (·.2)) e) (seeds : List (Argument α)) :
    e.value (g.binding (args ++ seeds)) = e.value (f.binding args) := by
  obtain ⟨_, hi, -⟩ := h.inputs
  exact Expr.value_congr fun x hx hs =>
    binding_extended hi hargs (hf.symbol x (f.mem_nodes_of_reachable (he.below hx)) hs) seeds

include hseeds

/-- What the function fails with, the other one fails with. -/
theorem eval_eq_error {err : Error} (herr : f.eval args = .error err) :
    g.eval (args ++ seeds) = .error err := by
  obtain ⟨results, ho⟩ := h.outputs
  have hvalues : ∀ e ∈ Expr.topologicalOrder (f.outputs.map (·.2)),
      e.value (g.binding (args ++ seeds)) = e.value (f.binding args) := fun e he =>
    h.value_eq hf hargs ((Expr.mem_topologicalOrder h.isDag_self).1 he) seeds
  obtain ⟨rest, hrest⟩ := Expr.topologicalOrder_append (f.outputs.map (·.2)) (results.map (·.2))
  rw [← List.map_append, ← ho] at hrest
  rw [g.eval_eq_mapM_value h.isDag hseeds, ← hrest, List.mapM_append, Except.mapM_congr hvalues]
  rw [f.eval_eq_mapM_value h.isDag_self hargs] at herr
  cases horder : (Expr.topologicalOrder (f.outputs.map (·.2))).mapM (·.value (f.binding args)) with
  | error e =>
    rw [horder] at herr
    exact herr
  | ok vs =>
    -- where all nodes have values the outputs cannot fail
    obtain ⟨e, he, hfails⟩ : ∃ e ∈ f.outputs.map (·.2), e.value (f.binding args) = .error err := by
      rw [horder] at herr
      obtain ⟨before, e, after, hsplit, -, he⟩ := Except.mapM_eq_error.1 (show
        (f.outputs.map (·.2)).mapM (·.value (f.binding args)) = .error err from herr)
      exact ⟨e, by rw [hsplit]; simp, he⟩
    obtain ⟨v, hv⟩ := Except.exists_mapM_eq_ok.1 ⟨vs, horder⟩ e
      ((Expr.mem_topologicalOrder h.isDag_self).2 (.root he))
    rw [hfails] at hv
    cases hv

/-- The results of the function come first. -/
theorem eval_eq_ok_take {out : List (Dense α)} (hout : g.eval (args ++ seeds) = .ok out) :
    f.eval args = .ok (out.take f.outputs.length) := by
  obtain ⟨results, ho⟩ := h.outputs
  have hvalues := List.forall₂_take f.outputs.length ((eval_eq_ok h.isDag hseeds).1 hout)
  rw [ho, List.take_left] at hvalues
  refine (eval_eq_ok h.isDag_self hargs).2 (List.forall₂_iff_zip.2 ⟨hvalues.length_eq, fun {y v} hyv => ?_⟩)
  rw [← h.value_eq hf hargs (f.reachable_output (List.of_mem_zip hyv).1) seeds]
  exact List.forall₂_zip hvalues hyv

end Prolongs

/-! ## Exact arithmetic -/

section Exact

variable {K : Type} [ExactScalar K] {f g : Func K} {args seeds : List (Argument K)}

/-- Where the function has a value, so does a derivative for all seeds. -/
theorem exists_eval_differentiate (hf : f.NumberedBelow s) {mode : Mode} {s' : Nat}
    (hg : (f.differentiate mode n).run.run s = (.ok g, s'))
    (hseeds : (args ++ seeds).map (·.shape) = g.inputShapes) {values : List (Dense K)}
    (hv : f.eval args = .ok values) : ∃ out, g.eval (args ++ seeds) = .ok out := by
  have hargs := shapes_of_eval hv
  have hsplit {shapes : List Shape} (hshapes : g.inputShapes = f.inputShapes ++ (List.replicate n shapes).flatten) :
      ∃ us : List (List (Argument K)), seeds = us.flatten ∧ us.length = n ∧
        ∀ u ∈ us, u.map (·.shape) = shapes := by
    obtain ⟨args', us, heq, hargs', hn, hus⟩ := exists_directions (hseeds.trans hshapes)
    have hlength : args.length = args'.length := by
      rw [length_of_shapes hargs, length_of_shapes hargs']
    exact ⟨us, (List.append_inj heq hlength).2, hn, hus⟩
  cases mode with
  | forward =>
    obtain ⟨us, rfl, hn, hus⟩ := hsplit (hf.extended_forward hg).inputShapes
    obtain ⟨out, hout, -⟩ := forward_values hf hg hv hn hus
    exact ⟨out, hout⟩
  | reverse =>
    obtain ⟨us, rfl, hn, hus⟩ := hsplit (hf.extended_reverse hg).inputShapes
    obtain ⟨out, hout, -⟩ := reverse_values hf hg hv hn hus
    exact ⟨out, hout⟩

end Exact

/-- The tape of a derivative starts with the instructions of its function. Whatever the scalars are, for
all arguments and all seeds it fails with the error that the function fails with, and when it does not
fail its first results are those of the function. Its systems have the matrices of systems of the function
or their transposes; in exact arithmetic it fails only where the function does. -/
theorem differentiate_reproduces :
    (∀ (α : Type) [Scalar α] (f g : Func α) (mode : Mode) (n s s' : Nat), f.NumberedBelow s →
      (f.differentiate mode n).run.run s = (.ok g, s') →
        f.tape.instrs.toList <+: g.tape.instrs.toList ∧
        (∀ args seeds : List (Argument α), args.map (·.shape) = f.inputShapes →
          (args ++ seeds).map (·.shape) = g.inputShapes →
            (∀ err, f.eval args = .error err → g.eval (args ++ seeds) = .error err) ∧
            ∀ out, g.eval (args ++ seeds) = .ok out → f.eval args = .ok (out.take f.outputs.length)) ∧
        ∀ i m b, .binary i .solve m b ∈ g.nodes →
          m.SystemIn f.nodes ∨ ∃ j m', m = .unary j .transpose m' ∧ m'.SystemIn f.nodes) ∧
    ∀ (K : Type) [ExactScalar K] (f g : Func K) (mode : Mode) (n s s' : Nat), f.NumberedBelow s →
      (f.differentiate mode n).run.run s = (.ok g, s') →
        ∀ args seeds : List (Argument K), (args ++ seeds).map (·.shape) = g.inputShapes →
          ∀ values, f.eval args = .ok values →
            ∃ out, g.eval (args ++ seeds) = .ok out ∧ out.take f.outputs.length = values := by
  refine ⟨fun α _ f g mode n s s' hf hg => ?_, fun K _ f g mode n s s' hf hg args seeds hseeds values hv => ?_⟩
  · have h := prolongs_differentiate hf hg
    refine ⟨h.instrs, fun args seeds hargs hseeds => ⟨fun err => ?_, fun out => ?_⟩, fun i m b he => ?_⟩
    · exact h.eval_eq_error hf hargs hseeds
    · exact h.eval_eq_ok_take hf hargs hseeds
    · exact solvesIn_differentiate hf hg _ he i m b rfl
  · obtain ⟨out, hout⟩ := exists_eval_differentiate hf hg hseeds hv
    have htake := (prolongs_differentiate hf hg).eval_eq_ok_take hf (shapes_of_eval hv) hseeds hout
    rw [hv] at htake
    exact ⟨out, hout, (Except.ok.inj htake).symm⟩

/-- Differentiating the function that squares a number keeps its tape, and its results with it. -/
theorem differentiate_reproduces_square : ∃ (f g : Func ℚ) (s : Nat), f.NumberedBelow 2 ∧
    (f.differentiate .forward 1).run.run 2 = (.ok g, s) ∧ f.tape.instrs.toList <+: g.tape.instrs.toList ∧
    ∃ values out, f.eval [.scalar 3] = .ok values ∧ g.eval [.scalar 3, .scalar 1] = .ok out ∧
      f.eval [.scalar 3] = .ok (out.take f.outputs.length) ∧ out.take f.outputs.length = values := by
  obtain ⟨f, hi, ho, hf, -, values, hv⟩ := exists_square
  obtain ⟨g, s, hg⟩ := (exists_forward_iff hf 1).2 fun d hd => by
    obtain rfl : d = 0 := by omega
    simp only [inputNames, outputNames, hi, ho]
    decide
  have hseeds : ([.scalar 3] ++ [.scalar 1] : List (Argument ℚ)).map (·.shape) = g.inputShapes := by
    rw [(hf.extended_forward hg).inputShapes, inputShapes, hi]
    rfl
  obtain ⟨htape, hresults, -⟩ := differentiate_reproduces.1 ℚ f g .forward 1 2 s hf hg
  obtain ⟨out, hout, htake⟩ :=
    differentiate_reproduces.2 ℚ f g .forward 1 2 s hf hg [.scalar 3] [.scalar 1] hseeds values hv
  exact ⟨f, g, s, hf, hg, htape, values, out, hv, hout,
    (hresults _ _ (shapes_of_eval hv) hseeds).2 out hout, htake⟩

end Lyapunov.Func
