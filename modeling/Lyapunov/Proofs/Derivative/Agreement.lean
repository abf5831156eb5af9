/-
Functions that agree. Two functions with the same inputs and outputs and the same values may have quite
different nodes; where their outputs have the same rates of change as well, all their derivatives have the
same values.
-/
import Lyapunov.Proofs.Derivative.Nesting
import Lyapunov.Proofs.Func.Symbols

namespace Lyapunov

open Build

variable {α : Type}

namespace Func

/-! ## Equal outputs -/

/-- The values by the names of the outputs are the values in order. -/
theorem map_output? (f : Func α) {vs : List (Dense α)} (hvs : vs.length = f.outputNames.length) :
    f.outputNames.map (f.output? vs) = vs.map some := by
  refine List.ext_getElem (by simp [hvs]) fun k hk hk' => ?_
  have hk : k < f.outputNames.length := by simpa using hk
  have hname : f.outputNames[k]? = some f.outputNames[k] := List.getElem?_eq_getElem hk
  rw [List.getElem_map, List.getElem_map, output?, outputIndex?_eq_some hname, Option.bind_some,
    List.getElem?_eq_getElem (hvs ▸ hk)]

/-- Values with the same value for every output name are equal. -/
theorem eq_of_output? (f : Func α) {vs ws : List (Dense α)} (hvs : vs.length = f.outputNames.length)
    (hws : ws.length = f.outputNames.length)
    (h : ∀ name ∈ f.outputNames, f.output? vs name = f.output? ws name) : vs = ws := by
  refine List.map_injective_iff.2 (Option.some_injective _) ?_
  rw [← f.map_output? hvs, ← f.map_output? hws]
  exact List.map_congr_left h

theorem output?_congr {f g : Func α} (h : f.outputNames = g.outputNames) (vs : List (Dense α))
    (name : String) : f.output? vs name = g.output? vs name := by
  rw [output?, output?, outputIndex?, outputIndex?, h]

variable [Scalar α]

/-- The functions have the same inputs and outputs, and the same values at all arguments of the shapes of
the inputs. -/
structure SameValues (f g : Func α) : Prop where
  inputNames : f.inputNames = g.inputNames
  inputShapes : f.inputShapes = g.inputShapes
  outputNames : f.outputNames = g.outputNames
  eval : ∀ args : List (Argument α), args.map (·.shape) = f.inputShapes →
    ∃ values, f.eval args = .ok values ∧ g.eval args = .ok values

theorem length_eval {f : Func α} (hdag : IsDag (f.outputs.map (·.2))) {args : List (Argument α)}
    {values : List (Dense α)} (hv : f.eval args = .ok values) : values.length = f.outputNames.length := by
  rw [outputNames, List.length_map]
  exact ((eval_eq_ok hdag (shapes_of_eval hv)).1 hv).length_eq.symm

/-! ## Extensions -/

/-- The function `g` has the inputs and outputs of `f`, further inputs of the given shapes for each of `n`
directions, and further outputs. -/
structure Extended (f g : Func α) (shapes : List Shape) (n : Nat) : Prop where
  isDag : IsDag (g.outputs.map (·.2))
  inputShapes : g.inputShapes = f.inputShapes ++ (List.replicate n shapes).flatten
  output : ∀ {args us values out}, f.eval args = .ok values → g.eval (args ++ us) = .ok out →
    ∀ name ∈ f.outputNames, g.output? out name = f.output? values name

end Func

theorem shapes_flatMap {nodes : Added α → List (String × Expr α)} {targets : List (String × Expr α)}
    {ds : List Nat} {rs : List (Added α)}
    (h : List.Forall₂ (fun _ r => List.Forall₂ (fun p o => o.2.shape = p.2.shape) targets (nodes r)) ds rs) :
    (rs.flatMap nodes).map (·.2.shape) = (List.replicate ds.length (targets.map (·.2.shape))).flatten := by
  induction h with
  | nil => rfl
  | @cons d r ds rs hr _ ih =>
    have hshapes : (nodes r).map (·.2.shape) = targets.map (·.2.shape) := by
      rw [← List.forall₂_eq_eq_eq, List.forall₂_map_left_iff, List.forall₂_map_right_iff]
      exact hr.flip
    rw [List.flatMap_cons, List.map_append, hshapes, ih, List.length_cons, List.replicate_succ,
      List.flatten_cons]

theorem Directed.seedShapes {F : Prop} {S : Set (Expr α)} {tag : Nat → String}
    {targets results : List (String × Expr α)} {ds : List Nat} {rs : List (Added α)}
    (h : Directed F S tag targets results ds rs) :
    (rs.flatMap (·.1)).map (·.2.shape) =
      (List.replicate ds.length (targets.map (·.2.shape))).flatten :=
  shapes_flatMap (h.imp fun _ _ hr => hr.1.imp fun _ _ hs => hs.shape)

theorem Directed.resultShapes {S : Set (Expr α)} {tag : Nat → String}
    {targets results : List (String × Expr α)} {ds : List Nat} {rs : List (Added α)}
    (h : Directed True S tag targets results ds rs) :
    (rs.flatMap (·.2)).map (·.2.shape) =
      (List.replicate ds.length (results.map (·.2.shape))).flatten :=
  shapes_flatMap (h.imp fun _ _ hr => hr.2.imp fun _ _ hs => hs.node.shape trivial)

namespace Func

variable [Scalar α] {f g f₁ g₁ : Func α} {s n : Nat}

/-- A derivative extends its function. -/
theorem NumberedBelow.extended {F : Prop} {R : Shape → Prop} {S : Set (Expr α)} {tag : Nat → String}
    {targets results : List (String × Expr α)} {m : Nat} {rs : List (Added α)} {name : String}
    (hf : f.NumberedBelow s)
    (hext : Extension F R f m S (rs.flatMap (·.1)) (rs.flatMap (·.2)))
    (hadded : Directed F S tag targets results (List.range n) rs)
    (hg : make name (f.inputs ++ rs.flatMap (·.1)) (f.outputs ++ rs.flatMap (·.2)) = .ok g) :
    f.Extended g (targets.map (·.2.shape)) n := by
  obtain ⟨-, hi, ho⟩ := make_eq_ok hg
  have hdag := (hext.numberedBelow hg).isDag
  refine ⟨hdag, ?_, fun {args us values out} hv hout name hname => ?_⟩
  · rw [inputShapes, hi, List.map_append, hadded.seedShapes, List.length_range]
    rfl
  · obtain ⟨y, hy, rfl⟩ := List.mem_map.1 hname
    have hargs := shapes_of_eval hv
    have henv : ∀ e ∈ nodesOf f.inputs, g.binding (args ++ us) e.id = f.binding args e.id :=
      fun e he => binding_extended hi hargs he us
    have hreach := f.reachable_output hy
    have hy' : y ∈ g.outputs := by
      rw [ho]
      exact List.mem_append_left _ hy
    rw [output?_eq_some hdag hout hy' (hf.computes hv henv hreach).value,
      output?_eq_some hf.isDag hv hy (hf.evaluated hv hreach).computes.value]

theorem NumberedBelow.extended_forward (hf : f.NumberedBelow s) {s' : Nat}
    (hg : (f.forward n).run.run s = (.ok g, s')) : f.Extended g f.inputShapes n := by
  rw [run_forward] at hg
  obtain ⟨S, hext, hadded⟩ := exists_extension_forward (F := False) (R := fun _ => True) hf
    (fun h => h.elim) n
  exact hf.extended hext hadded (Prod.mk.inj hg).1

theorem NumberedBelow.extended_reverse (hf : f.NumberedBelow s) {s' : Nat}
    (hg : (f.reverse n).run.run s = (.ok g, s')) : f.Extended g f.outputShapes n := by
  rw [run_reverse] at hg
  obtain ⟨S, hext, hadded⟩ := exists_extension_reverse (F := False) (R := fun _ => True) hf
    (fun _ _ => trivial) (fun h => h.elim) (fun h => h.elim) n
  exact hf.extended hext hadded (Prod.mk.inj hg).1

/-- What a derivative has in addition to the inputs and outputs of its function: in each of `n` directions
seeds named after what gets them, and results named after what they belong to, all of the same shapes. -/
structure IsDerivative (f g : Func α) (mode : Mode) (n : Nat) : Prop where
  names : Names f g mode n
  inputShapes : g.inputShapes = f.inputShapes ++ (List.replicate n (match mode with
    | .forward => f.inputShapes
    | .reverse => f.outputShapes)).flatten
  outputShapes : g.outputShapes = f.outputShapes ++ (List.replicate n (match mode with
    | .forward => f.outputShapes
    | .reverse => f.inputShapes)).flatten

theorem NumberedBelow.isDerivative_forward (hf : f.NumberedBelow s) {s' : Nat}
    (hg : (f.forward n).run.run s = (.ok g, s')) : f.IsDerivative g .forward n where
  names := ⟨(names_forward hf hg).1, (names_forward hf hg).2⟩
  inputShapes := (hf.extended_forward hg).inputShapes
  outputShapes := by
    rw [run_forward] at hg
    obtain ⟨-, -, ho⟩ := make_eq_ok (Prod.mk.inj hg).1
    obtain ⟨S, -, hadded⟩ := exists_extension_forward (F := True) (R := fun _ => True) hf
      (fun _ _ _ => trivial) n
    rw [Func.outputShapes, ho, List.map_append, hadded.resultShapes, List.length_range]
    rfl

/-- With a direction no Kronecker product may be empty. -/
theorem NumberedBelow.isDerivative_reverse (hf : f.NumberedBelow s)
    (hblocks : n ≠ 0 → ∀ e ∈ f.nodes, e.Contractible) {s' : Nat}
    (hg : (f.reverse n).run.run s = (.ok g, s')) : f.IsDerivative g .reverse n where
  names := ⟨(names_reverse hf hg).1, (names_reverse hf hg).2⟩
  inputShapes := (hf.extended_reverse hg).inputShapes
  outputShapes := by
    rw [run_reverse] at hg
    obtain ⟨-, -, ho⟩ := make_eq_ok (Prod.mk.inj hg).1
    rw [Func.outputShapes, ho, List.map_append]
    cases n with
    | zero => rfl
    | succ n =>
      obtain ⟨S, -, hadded⟩ := exists_extension_reverse (F := True) (R := fun _ => True) hf
        (fun _ _ => trivial) (fun _ _ _ => trivial) (fun _ => hblocks n.succ_ne_zero) (n + 1)
      rw [hadded.resultShapes, List.length_range]
      rfl

/-- Without tags in its names a function has all forward derivatives. -/
theorem NumberedBelow.exists_forward (hf : f.NumberedBelow s) (hnames : f.Untagged .forward) (n : Nat) :
    ∃ g s', (f.forward n).run.run s = (.ok g, s') := by
  have hfree (d : Nat) := hnames.not_taken d
  simp only [Taken, not_or, not_exists, not_and] at hfree
  exact (exists_forward_iff hf n).2 fun d _ => hfree d

/-- Without tags in its names and empty Kronecker products a function has all reverse derivatives. -/
theorem NumberedBelow.exists_reverse (hf : f.NumberedBelow s) (hblocks : ∀ e ∈ f.nodes, e.Contractible)
    (hnames : f.Untagged .reverse) (n : Nat) : ∃ g s', (f.reverse n).run.run s = (.ok g, s') := by
  have hfree (d : Nat) := hnames.not_taken d
  simp only [Taken, not_or, not_exists, not_and] at hfree
  exact (exists_reverse_iff_of_contractible hf hblocks n).2 fun d _ => hfree d

theorem NumberedBelow.exists_differentiate (hf : f.NumberedBelow s) (hblocks : ∀ e ∈ f.nodes, e.Contractible)
    (hnames : ∀ mode, f.Untagged mode) (mode : Mode) (n : Nat) :
    ∃ f₁ s', (f.differentiate mode n).run.run s = (.ok f₁, s') := by
  cases mode with
  | forward => exact hf.exists_forward (hnames _) n
  | reverse => exact hf.exists_reverse hblocks (hnames _) n

/-- Without directions a derivative is the function under another name. -/
theorem exists_reverse_zero (f : Func α) (s : Nat) : ∃ g s', (f.reverse 0).run.run s = (.ok g, s') := by
  obtain ⟨g, hg⟩ := exists_make.2 ⟨f.tape, compile_eq_ok.2 ⟨f.named, f.tape_eq⟩⟩
  refine ⟨g, s, (run_reverse f 0 s).trans (Prod.ext (Eq.trans ?_ hg) rfl)⟩
  show make _ (f.inputs ++ []) (f.outputs ++ []) = _
  rw [List.append_nil, List.append_nil]

omit [Scalar α] in
/-- Arguments of the shapes of the inputs and of seeds, taken apart. -/
theorem exists_directions {shapes seeds : List Shape} {n : Nat} {args : List (Argument α)}
    (h : args.map (·.shape) = shapes ++ (List.replicate n seeds).flatten) :
    ∃ (args' : List (Argument α)) (us : List (List (Argument α))), args = args' ++ us.flatten ∧
      args'.map (·.shape) = shapes ∧ us.length = n ∧ ∀ u ∈ us, u.map (·.shape) = seeds := by
  obtain ⟨args', rest, rfl, hargs, hrest⟩ := List.map_eq_append_iff.1 h
  refine ⟨args', ?_⟩
  clear h
  induction n generalizing rest with
  | zero => exact ⟨[], by rw [List.map_eq_nil_iff.1 hrest]; rfl, hargs, rfl, by simp⟩
  | succ n ih =>
    rw [List.replicate_succ, List.flatten_cons] at hrest
    obtain ⟨u, rest, rfl, hu, hrest⟩ := List.map_eq_append_iff.1 hrest
    obtain ⟨us, hus, -, hlen, hall⟩ := ih rest hrest
    refine ⟨u :: us, ?_, hargs, congrArg (· + 1) hlen, List.forall_mem_cons.2 ⟨hu, hall⟩⟩
    rw [List.flatten_cons, List.append_cancel_left hus]

/-- Extensions of functions with the same values have the same values when their additional outputs do. -/
theorem SameValues.of_extended (h : SameValues f g) {shapes : List Shape} {names : List String}
    (hf : f.Extended f₁ shapes n) (hg : g.Extended g₁ shapes n) (hin : f₁.inputNames = g₁.inputNames)
    (hfout : f₁.outputNames = f.outputNames ++ names) (hgout : g₁.outputNames = g.outputNames ++ names)
    (hadded : ∀ args values (us : List (List (Argument α))), f.eval args = .ok values →
      g.eval args = .ok values → us.length = n → (∀ u ∈ us, u.map (·.shape) = shapes) →
      ∃ out out', f₁.eval (args ++ us.flatten) = .ok out ∧ g₁.eval (args ++ us.flatten) = .ok out' ∧
        ∀ name ∈ names, f₁.output? out name = g₁.output? out' name) : SameValues f₁ g₁ := by
  have hout : f₁.outputNames = g₁.outputNames := by rw [hfout, hgout, h.outputNames]
  refine ⟨hin, by rw [hf.inputShapes, hg.inputShapes, h.inputShapes], hout, fun args hargs => ?_⟩
  rw [hf.inputShapes] at hargs
  obtain ⟨args, us, rfl, hargs, hlen, hus⟩ := exists_directions hargs
  obtain ⟨values, hfv, hgv⟩ := h.eval args hargs
  obtain ⟨out, out', hfo, hgo, hnames⟩ := hadded args values us hfv hgv hlen hus
  have heq : out = out' := by
    refine f₁.eq_of_output? (length_eval hf.isDag hfo) (hout ▸ length_eval hg.isDag hgo) fun name hname => ?_
    rw [output?_congr hout out']
    rw [hfout] at hname
    rcases List.mem_append.1 hname with hname | hname
    · rw [hf.output hfv hfo name hname, hg.output hgv hgo name (h.outputNames ▸ hname),
        output?_congr h.outputNames]
    · exact hnames name hname
  exact ⟨out, hfo, heq ▸ hgo⟩

/-! ## Derivatives -/

section Derivatives

variable {K : Type} [ExactScalar K] {f g f₁ g₁ : Func K} {s t s' t' n : Nat}

/-- Matrices with the same inner products with all arguments of their shapes are equal. -/
theorem eq_of_innerSum_toDense {as bs : List (Dense K)} (hs : as.map (·.shape) = bs.map (·.shape))
    (h : ∀ u : List (Argument K), u.map (·.shape) = as.map (·.shape) →
      Dense.innerSum as (u.map (·.toDense)) = Dense.innerSum bs (u.map (·.toDense))) : as = bs := by
  refine Dense.eq_of_innerSum hs fun ds hds => ?_
  have hinner := h (ds.map .dense) (by rw [← hds, List.map_map]; rfl)
  rwa [List.map_map, show (·.toDense) ∘ Argument.dense = @id (Dense K) from rfl, List.map_id] at hinner

/-- The rates of change of the outputs, under their names, at the arguments `args` in the direction `u`. -/
def namedRates (f : Func K) (args u : List (Argument K)) : List (String × Dense K) :=
  f.outputs.map fun y => (y.1, y.2.rate (f.binding args) (f.binding u))

/-- The functions have the same values and the same rates of change. -/
structure SameRates (f g : Func K) : Prop where
  values : SameValues f g
  outputShapes : f.outputShapes = g.outputShapes
  rates : ∀ args u : List (Argument K), args.map (·.shape) = f.inputShapes →
    u.map (·.shape) = f.inputShapes → f.namedRates args u = g.namedRates args u

/-- The forward derivatives of functions with the same rates of change have the same values. -/
theorem SameRates.forward (h : SameRates f g) (hf : f.NumberedBelow s) (hg : g.NumberedBelow t)
    (hf₁ : (f.forward n).run.run s = (.ok f₁, s')) (hg₁ : (g.forward n).run.run t = (.ok g₁, t')) :
    SameValues f₁ g₁ := by
  obtain ⟨hfin, hfout⟩ := names_forward hf hf₁
  obtain ⟨hgin, hgout⟩ := names_forward hg hg₁
  have hg' := hg.extended_forward hg₁
  rw [← h.values.inputShapes] at hg'
  rw [← h.values.outputNames] at hgout
  refine h.values.of_extended (hf.extended_forward hf₁) hg' (by rw [hfin, hgin, h.values.inputNames]) hfout
    (by rw [hgout, h.values.outputNames]) fun args values us hfv hgv hlen hus => ?_
  obtain ⟨out, hout, hrates⟩ := forward_values hf hf₁ hfv hlen hus
  obtain ⟨out', hout', hrates'⟩ := forward_values hg hg₁ hgv hlen (h.values.inputShapes ▸ hus)
  refine ⟨out, out', hout, hout', fun name hname => ?_⟩
  obtain ⟨d, hd, x, hx, rfl⟩ := mem_tagged.1 hname
  obtain ⟨y, hy, rfl⟩ := List.mem_map.1 hx
  have hu : us[d]? = some us[d] := List.getElem?_eq_getElem (hlen ▸ hd)
  -- the output of the same name has the same rate of change
  have hrate : (y.1, y.2.rate (f.binding args) (f.binding us[d])) ∈ g.namedRates args us[d] := by
    rw [← h.rates args us[d] (shapes_of_eval hfv) (hus _ (List.getElem_mem _))]
    exact List.mem_map_of_mem hy
  obtain ⟨z, hz, hzy⟩ := List.mem_map.1 hrate
  obtain ⟨hname, hrate⟩ := Prod.mk.inj hzy
  rw [hrates d _ hu y hy, ← hname, hrates' d _ hu z hz, hrate]

omit [ExactScalar K] in
/-- The adjoints of one direction: for each input the value of the result with its name. -/
theorem map_output?_eq {out dxs : List (Dense K)} {tag : String}
    (h : List.Forall₂ (fun x z => f₁.output? out (tag ++ x.1) = some z ∧ z.shape = x.2.shape) f.inputs dxs) :
    f.inputNames.map (fun x => f₁.output? out (tag ++ x)) = dxs.map some ∧
      dxs.map (·.shape) = f.inputShapes := by
  rw [inputNames, inputShapes, List.map_map]
  constructor
  · rw [← List.forall₂_eq_eq_eq, List.forall₂_map_left_iff, List.forall₂_map_right_iff]
    exact h.imp fun x z hz => hz.1
  · rw [← List.forall₂_eq_eq_eq, List.forall₂_map_left_iff, List.forall₂_map_right_iff]
    exact (h.imp fun x z hz => hz.2).flip

/-- The reverse derivatives of functions with the same rates of change have the same values: adjoints are
determined by what they pair with. -/
theorem SameRates.reverse (h : SameRates f g) (hf : f.NumberedBelow s) (hg : g.NumberedBelow t)
    (hf₁ : (f.reverse n).run.run s = (.ok f₁, s')) (hg₁ : (g.reverse n).run.run t = (.ok g₁, t')) :
    SameValues f₁ g₁ := by
  obtain ⟨hfin, hfout⟩ := names_reverse hf hf₁
  obtain ⟨hgin, hgout⟩ := names_reverse hg hg₁
  have hg' := hg.extended_reverse hg₁
  rw [← h.outputShapes] at hg'
  rw [← h.values.inputNames] at hgout
  refine h.values.of_extended (hf.extended_reverse hf₁) hg'
    (by rw [hfin, hgin, h.values.inputNames, h.values.outputNames]) hfout hgout
    fun args values ws hfv hgv hlen hws => ?_
  obtain ⟨out, hout, hadjoint⟩ := reverse_values hf hf₁ hfv hlen hws
  obtain ⟨out', hout', hadjoint'⟩ := reverse_values hg hg₁ hgv hlen (h.outputShapes ▸ hws)
  refine ⟨out, out', hout, hout', fun name hname => ?_⟩
  obtain ⟨d, hd, x, hx, rfl⟩ := mem_tagged.1 hname
  have hw : ws[d]? = some ws[d] := List.getElem?_eq_getElem (hlen ▸ hd)
  obtain ⟨dxs, hdxs, hpair⟩ := hadjoint d _ hw
  obtain ⟨dxs', hdxs', hpair'⟩ := hadjoint' d _ hw
  obtain ⟨houts, hshapes⟩ := map_output?_eq hdxs
  obtain ⟨houts', hshapes'⟩ := map_output?_eq hdxs'
  have hinputs := hshapes.trans (h.values.inputShapes.trans hshapes'.symm)
  have heq : dxs = dxs' := eq_of_innerSum_toDense (hshapes.trans (h.values.inputShapes.trans hshapes'.symm))
    fun u hu => by
      have hu := hu.trans hshapes
      have hrates := congrArg (List.map Prod.snd) (h.rates args u (shapes_of_eval hfv) hu)
      rw [namedRates, namedRates, List.map_map, List.map_map] at hrates
      rw [← hpair u hu, ← hpair' u (hu.trans h.values.inputShapes)]
      exact congrArg _ hrates
  rw [← heq, ← h.values.inputNames, ← houts] at houts'
  exact (List.map_inj_left.1 houts' x hx).symm

/-- All derivatives exist, made from the nodes with the numbers `s` and `t` on or from later ones, and have
the same values. -/
def SameDerivatives (f : Func K) (s : Nat) (g : Func K) (t : Nat) : Prop :=
  ∀ (mode : Mode) (n r r' : Nat), s ≤ r → t ≤ r' →
    ∃ f₁ s' g₁ t', (f.differentiate mode n).run.run r = (.ok f₁, s') ∧
      (g.differentiate mode n).run.run r' = (.ok g₁, t') ∧ SameValues f₁ g₁

theorem SameRates.sameDerivatives (h : SameRates f g) (hf : f.NumberedBelow s) (hg : g.NumberedBelow t)
    (hfblocks : ∀ e ∈ f.nodes, e.Contractible) (hgblocks : ∀ e ∈ g.nodes, e.Contractible)
    (hnames : ∀ mode, f.Untagged mode) : SameDerivatives f s g t := by
  intro mode n r r' hr hr'
  have hfr := hf.mono hr
  have hgr := hg.mono hr'
  have hgnames (mode : Mode) : g.Untagged mode := by
    have := hnames mode
    rwa [Untagged, h.values.inputNames, h.values.outputNames] at this
  obtain ⟨f₁, s', hf₁⟩ := hfr.exists_differentiate hfblocks hnames mode n
  obtain ⟨g₁, t', hg₁⟩ := hgr.exists_differentiate hgblocks hgnames mode n
  refine ⟨f₁, s', g₁, t', hf₁, hg₁, ?_⟩
  cases mode with
  | forward => exact h.forward hfr hgr hf₁ hg₁
  | reverse => exact h.reverse hfr hgr hf₁ hg₁

end Derivatives

/-! ## Rates from values over the dual numbers -/

section Dual

variable {K : Type} [ExactScalar K] {f : Func K} {symbols : List (String × Expr K)} {m : Build (Expr K)}
  {output : String} {n : Nat} {args u : List (Argument K)}

namespace BuiltBy

variable (h : f.BuiltBy symbols output m n) (hargs : args.map (·.shape) = symbols.map (·.2.shape))
  (hu : u.map (·.shape) = symbols.map (·.2.shape))

include h hargs hu

/-- Over the dual numbers the symbols have the arguments with those of the direction as their values. -/
theorem forall₂_dualComputes :
    List.Forall₂ (fun p d => p.2.DualComputes (f.dualBinding args u) d) symbols
      ((args.zip u).map fun x => .dual x.1.toDense x.2.toDense) := by
  refine List.forall₂_map_right_iff.2 ((Except.forall₂_zip_and (h.forall₂_binding hargs)
    (h.forall₂_binding hu)).imp fun p x hx => ?_)
  obtain ⟨⟨hs, hshape, hb⟩, -, -, hb'⟩ := hx
  refine ⟨hshape, ?_⟩
  rw [← hb, ← hb']
  obtain ⟨name, e⟩ := p
  cases e with
  | symbol i label s => exact .symbol i label s
  | _ => cases hs

/-- What the output is read as over the dual numbers gives its rate of change. -/
theorem namedRates_eq {values : List (Dense K)} (hv : f.eval args = .ok values) {d : Dense (DualNumber K)}
    (hm : Grows (Readable (Expr.DualComputes (f.dualBinding args u))) (nodesOf symbols) m
      (Reads (Expr.DualComputes (f.dualBinding args u)) d)) :
    f.namedRates args u = f.outputNames.map (·, d.ep) := by
  obtain ⟨S, -, -, hy⟩ := hm n (h.declared.store fun e he => by
    obtain ⟨p, hp, rfl⟩ := he
    obtain ⟨d, -, hd⟩ := Except.forall₂_exists_right (h.forall₂_dualComputes hargs hu) p hp
    exact ⟨d, hd⟩)
  have hmem : (output, (m.run n).1) ∈ f.outputs := by
    rw [h.outputs]
    exact List.mem_singleton_self _
  have heval := h.numbered.evaluated hv (f.reachable_output hmem)
  have hbound := h.numbered.bound (h.shapes hu) (f.output_mem_nodes hmem)
  have hd := hy.reads.value.unique (heval.dualValue hbound)
  have hep := Dense.ep_dual (heval.shape_rate hbound)
  rw [namedRates, outputNames, h.outputs, hd, hep]
  rfl

end BuiltBy

end Dual

end Func

end Lyapunov
