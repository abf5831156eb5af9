/-
The nodes of a function. Its symbols are the inputs, and at arguments where the function has a value
every node that the outputs can reach can be evaluated.
-/
import Lyapunov.Proofs.Func.Evaluation
import Lyapunov.Proofs.Tape.Shapes

namespace Lyapunov

variable {α : Type}

theorem Expr.operands_of_isSymbol {e : Expr α} (h : e.isSymbol = true) : e.operands = [] := by
  cases e with
  | symbol => rfl
  | _ => cases h

theorem Expr.checkOperands_of_isSymbol {e : Expr α} (h : e.isSymbol = true) :
    e.checkOperands = .ok () := by
  cases e with
  | symbol => rfl
  | _ => cases h

/-- The nodes given under some names. -/
def nodesOf (named : List (String × Expr α)) : Set (Expr α) := {e | ∃ p ∈ named, p.2 = e}

/-- Arguments have the shapes of their matrices. -/
theorem map_shape_toDense [Zero α] [Add α] {args : List (Argument α)} {ms : List (Dense α)}
    (h : args.map (·.toDense) = ms) : args.map (·.shape) = ms.map (·.shape) := by
  rw [← h, List.map_map]
  exact List.map_congr_left fun x _ => x.shape_toDense.symm

namespace Func

/-- The nodes below the inputs and outputs. -/
def nodes (f : Func α) : Set (Expr α) :=
  {e | Expr.Reachable (f.inputs.map (·.2) ++ f.outputs.map (·.2)) e}

/-- Each number stands for one node of the function and is below `n`, the number of the next node. -/
structure NumberedBelow (f : Func α) (n : Nat) : Prop where
  graph : IsGraph f.nodes
  below : ∀ e ∈ f.nodes, e.id < n

theorem input_mem_nodes (f : Func α) {p : String × Expr α} (h : p ∈ f.inputs) : p.2 ∈ f.nodes :=
  .root (List.mem_append_left _ (List.mem_map.2 ⟨p, h, rfl⟩))

theorem output_mem_nodes (f : Func α) {p : String × Expr α} (h : p ∈ f.outputs) : p.2 ∈ f.nodes :=
  .root (List.mem_append_right _ (List.mem_map.2 ⟨p, h, rfl⟩))

theorem reachable_output (f : Func α) {p : String × Expr α} (h : p ∈ f.outputs) :
    Expr.Reachable (f.outputs.map (·.2)) p.2 := .root (List.mem_map.2 ⟨p, h, rfl⟩)

theorem mem_nodes_of_reachable (f : Func α) {e : Expr α}
    (h : Expr.Reachable (f.outputs.map (·.2)) e) : e ∈ f.nodes :=
  h.mono fun _ => List.mem_append_right _

/-- A node is an input or one that the outputs can reach. -/
theorem mem_nodes (f : Func α) {e : Expr α} (h : e ∈ f.nodes) :
    e ∈ nodesOf f.inputs ∨ Expr.Reachable (f.outputs.map (·.2)) e := by
  obtain ⟨r, hr, hb⟩ := h
  rcases List.mem_append.1 hr with hr | hr
  · obtain ⟨p, hp, rfl⟩ := List.mem_map.1 hr
    rcases Expr.below_iff.1 hb with rfl | ⟨x, hx, -⟩
    · exact .inl ⟨p, hp, rfl⟩
    · rw [Expr.operands_of_isSymbol (f.named.symbols p hp)] at hx
      cases hx
  · exact .inr ⟨r, hr, hb⟩

variable {f : Func α} {n : Nat}

theorem NumberedBelow.isDag (h : f.NumberedBelow n) : IsDag (f.outputs.map (·.2)) :=
  h.graph.isDag fun _ hr => .root (List.mem_append_right _ hr)

theorem NumberedBelow.order_mem_nodes (h : f.NumberedBelow n) :
    ∀ e ∈ Expr.topologicalOrder (f.outputs.map (·.2)), e ∈ f.nodes := by
  intro e he
  exact f.mem_nodes_of_reachable ((Expr.mem_topologicalOrder h.isDag).1 he)

/-- Nodes that fit, with their operands among them, make functions of their symbols, and such a function
has no other nodes. -/
theorem exists_of_list {nodes : List (Expr α)} (hS : IsGraph {e | e ∈ nodes}) (name : String)
    {inputs outputs : List (String × Expr α)} (hnamed : Named inputs outputs)
    (hinputs : ∀ p ∈ inputs, p.2 ∈ nodes) (houtputs : ∀ p ∈ outputs, p.2 ∈ nodes)
    (hnodes : ∀ e ∈ nodes, e.checkOperands = .ok () ∧ (e.isSymbol = true → ∃ x ∈ inputs, x.2.id = e.id))
    (hbelow : ∀ e ∈ nodes, e.id < n) :
    ∃ f : Func α, f.inputs = inputs ∧ f.outputs = outputs ∧ f.NumberedBelow n ∧ ∀ e ∈ f.nodes, e ∈ nodes := by
  obtain ⟨f, hf⟩ := exists_make_of_list hS name hnamed houtputs hnodes
  obtain ⟨-, rfl, rfl⟩ := make_eq_ok hf
  have hroots : ∀ r ∈ f.inputs.map (·.2) ++ f.outputs.map (·.2), r ∈ nodes :=
    List.forall_mem_append.2 ⟨List.forall_mem_map.2 hinputs, List.forall_mem_map.2 houtputs⟩
  have hmem : ∀ e ∈ f.nodes, e ∈ nodes := fun _ he => hS.reachable hroots he
  exact ⟨f, rfl, rfl, ⟨hS.isDag hroots, fun e he => hbelow e (hmem e he)⟩, hmem⟩

theorem NumberedBelow.mono (h : f.NumberedBelow n) {m : Nat} (hnm : n ≤ m) : f.NumberedBelow m :=
  ⟨h.graph, fun e he => (h.below e he).trans_le hnm⟩

/-- The operands of every node fit. -/
theorem NumberedBelow.check (h : f.NumberedBelow n) : ∀ e ∈ f.nodes, e.checkOperands = .ok () := by
  intro e he
  rcases f.mem_nodes he with ⟨p, hp, rfl⟩ | hr
  · exact Expr.checkOperands_of_isSymbol (f.named.symbols p hp)
  · exact ((Tape.exists_compile h.isDag).1 ⟨_, f.tape_eq⟩ e hr).1

/-- A symbol of the function is an input. -/
theorem NumberedBelow.symbol (h : f.NumberedBelow n) :
    ∀ e ∈ f.nodes, e.isSymbol = true → e ∈ nodesOf f.inputs := by
  intro e he hs
  rcases f.mem_nodes he with hi | hr
  · exact hi
  · obtain ⟨x, hx, hid⟩ := ((Tape.exists_compile h.isDag).1 ⟨_, f.tape_eq⟩ e hr).2 hs
    obtain ⟨p, hp, rfl⟩ := List.mem_map.1 hx
    exact ⟨p, hp, h.graph.unique _ (f.input_mem_nodes hp) _ he hid⟩

/-! ## Values -/

theorem length_of_shapes {args : List (Argument α)} (h : args.map (·.shape) = f.inputShapes) :
    args.length = f.inputs.length := by
  simpa [inputShapes] using congrArg List.length h

section Eval

variable [Scalar α]

theorem shapes_of_eval {args : List (Argument α)} {values : List (Dense α)}
    (h : f.eval args = .ok values) : args.map (·.shape) = f.inputShapes := by
  obtain ⟨⟨⟩, hc, -⟩ := Except.bind_eq_ok.1 h
  exact checkArguments_eq_ok.1 hc

/-- An input has the argument in its place as its value. -/
theorem binding_of_mem_zip {args : List (Argument α)} {p : (String × Expr α) × Argument α}
    (h : p ∈ f.inputs.zip args) : f.binding args p.1.2.id = p.2.toDense := by
  obtain ⟨k, hk⟩ := List.mem_iff_getElem?.1 h
  obtain ⟨hi, ha⟩ := List.getElem?_zip_eq_some.1 hk
  exact f.binding_input hi ha

/-- Arguments of the shapes of the inputs bind the symbols to matrices of their shapes. -/
theorem NumberedBelow.bound (h : f.NumberedBelow n) {args : List (Argument α)}
    (hargs : args.map (·.shape) = f.inputShapes) {e : Expr α} (he : e ∈ f.nodes) :
    e.Bound (f.binding args) := by
  intro x hx hs
  obtain ⟨p, hp, rfl⟩ := h.symbol x (h.graph.below he hx) hs
  obtain ⟨k, hk⟩ := List.mem_iff_getElem?.1 hp
  have hshape : (args.map (·.shape))[k]? = some p.2.shape := by
    rw [hargs, inputShapes, List.getElem?_map, hk]; rfl
  rw [List.getElem?_map] at hshape
  obtain ⟨arg, ha, hshape⟩ := Option.map_eq_some_iff.1 hshape
  rw [f.binding_input hk ha, Argument.shape_toDense, hshape]

/-- The inputs have values of their shapes. -/
theorem NumberedBelow.exists_computes_input (h : f.NumberedBelow n) {args : List (Argument α)}
    (hargs : args.map (·.shape) = f.inputShapes) {e : Expr α} (he : e ∈ nodesOf f.inputs) :
    ∃ v, e.Computes (f.binding args) v := by
  obtain ⟨p, hp, rfl⟩ := he
  have hs := f.named.symbols p hp
  exact ⟨_, Expr.value_of_isSymbol _ hs, (h.bound hargs (f.input_mem_nodes hp) _ (.refl _) hs).symm⟩

/-- A function has a value exactly when its outputs have values, and these are its value. -/
theorem eval_eq_ok (hdag : IsDag (f.outputs.map (·.2))) {args : List (Argument α)}
    (hargs : args.map (·.shape) = f.inputShapes) {values : List (Dense α)} :
    f.eval args = .ok values ↔
      List.Forall₂ (fun y v => y.2.value (f.binding args) = .ok v) f.outputs values := by
  have hmap : List.Forall₂ (fun y v => y.2.value (f.binding args) = .ok v) f.outputs values ↔
      (f.outputs.map (·.2)).mapM (·.value (f.binding args)) = .ok values := by
    rw [Except.mapM_eq_ok, List.forall₂_map_left_iff]
  rw [f.eval_eq_mapM_value hdag hargs, hmap, Except.bind_eq_ok]
  constructor
  · rintro ⟨vs, -, h⟩; exact h
  · intro h
    -- where the outputs have values, so do the nodes below them
    have hvalues := Except.exists_mapM_eq_ok.1 ⟨values, h⟩
    have hall : ∀ e ∈ Expr.topologicalOrder (f.outputs.map (·.2)), ∃ v, e.value (f.binding args) = .ok v := by
      intro e he
      obtain ⟨r, hr, hb⟩ := (Expr.mem_topologicalOrder hdag).1 he
      exact Expr.exists_value_of_below (hvalues r hr) hb
    obtain ⟨vs, hvs⟩ := Except.exists_mapM_eq_ok.2 hall
    exact ⟨vs, hvs, h⟩

theorem exists_eval (hdag : IsDag (f.outputs.map (·.2))) {args : List (Argument α)}
    (hargs : args.map (·.shape) = f.inputShapes)
    (h : ∀ y ∈ f.outputs, ∃ v, y.2.value (f.binding args) = .ok v) :
    ∃ values, f.eval args = .ok values := by
  obtain ⟨values, hvalues⟩ := Except.exists_mapM_eq_ok.2 h
  exact ⟨values, (eval_eq_ok hdag hargs).2 (Except.mapM_eq_ok.1 hvalues)⟩

/-- A function that fails does so with an error of one of its nodes. -/
theorem eval_eq_ok_or (hdag : IsDag (f.outputs.map (·.2))) {args : List (Argument α)}
    (hargs : args.map (·.shape) = f.inputShapes) {E : Error → Prop}
    (h : ∀ e, Expr.Reachable (f.outputs.map (·.2)) e →
      (∃ v, e.value (f.binding args) = .ok v) ∨ ∃ err, E err ∧ e.value (f.binding args) = .error err) :
    (∃ values, f.eval args = .ok values) ∨ ∃ err, E err ∧ f.eval args = .error err := by
  have herror {l : List (Expr α)} (hl : ∀ x ∈ l, Expr.Reachable (f.outputs.map (·.2)) x) {e : Error}
      (he : l.mapM (·.value (f.binding args)) = .error e) : E e := by
    obtain ⟨before, x, after, rfl, -, hx⟩ := Except.mapM_eq_error.1 he
    rcases h x (hl x (by simp)) with ⟨v, hv⟩ | ⟨err, herr, hv⟩
    · rw [hx] at hv
      cases hv
    · rw [hx] at hv
      cases hv
      exact herr
  cases hresult : f.eval args with
  | ok values => exact .inl ⟨values, rfl⟩
  | error e =>
    rw [f.eval_eq_mapM_value hdag hargs] at hresult
    rcases Except.bind_eq_error.1 hresult with horder | ⟨_, -, houtputs⟩
    · exact .inr ⟨e, herror (fun x hx => (Expr.mem_topologicalOrder hdag).1 hx) horder, rfl⟩
    · exact .inr ⟨e, herror (fun x hx => .root hx) houtputs, rfl⟩

/-- Where the nodes that fail do so with one error, and one of them does, the function fails with it. -/
theorem eval_eq_error (hdag : IsDag (f.outputs.map (·.2))) {args : List (Argument α)}
    (hargs : args.map (·.shape) = f.inputShapes) {err : Error}
    (h : ∀ e, Expr.Reachable (f.outputs.map (·.2)) e →
      (∃ v, e.value (f.binding args) = .ok v) ∨ e.value (f.binding args) = .error err)
    {x : Expr α} (hx : Expr.Reachable (f.outputs.map (·.2)) x)
    (hfails : x.value (f.binding args) = .error err) : f.eval args = .error err := by
  rcases eval_eq_ok_or (E := (· = err)) hdag hargs fun e he => (h e he).imp_right fun hv => ⟨err, rfl, hv⟩
    with ⟨values, hvalues⟩ | ⟨_, rfl, herror⟩
  · rw [f.eval_eq_mapM_value hdag hargs] at hvalues
    obtain ⟨_, -, hvalues⟩ := Except.bind_eq_ok.1 hvalues
    obtain ⟨r, hr, hb⟩ := hx
    obtain ⟨v, hv⟩ := Expr.exists_value_of_below (Except.exists_mapM_eq_ok.1 ⟨_, hvalues⟩ r hr) hb
    rw [hfails] at hv
    cases hv
  · exact herror

/-- The value of the output of the given name, among the values of the outputs. -/
def output? (f : Func α) (values : List (Dense α)) (name : String) : Option (Dense α) :=
  (f.outputIndex? name).bind (values[·]?)

omit [Scalar α] in
theorem outputIndex?_eq_some {name : String} {k : Nat} (hname : f.outputNames[k]? = some name) :
    f.outputIndex? name = some k := by
  obtain ⟨hlt, hget⟩ := List.getElem?_eq_some_iff.1 hname
  -- no output before this one has its name
  refine List.findIdx?_eq_some_iff_getElem.2 ⟨hlt, by simp [hget], fun j hj => ?_⟩
  rw [← hget, beq_iff_eq]
  exact fun heq => absurd (f.named.outputNames.getElem_inj_iff.1 heq) (by omega)

theorem output?_eq_some (hdag : IsDag (f.outputs.map (·.2))) {args : List (Argument α)}
    {values : List (Dense α)} (h : f.eval args = .ok values) {y : String × Expr α} (hy : y ∈ f.outputs)
    {v : Dense α} (hv : y.2.value (f.binding args) = .ok v) : f.output? values y.1 = some v := by
  have hvalues := (eval_eq_ok hdag (shapes_of_eval h)).1 h
  obtain ⟨k, hk⟩ := List.mem_iff_getElem?.1 hy
  have hname : f.outputNames[k]? = some y.1 := by
    rw [outputNames, List.getElem?_map, hk]; rfl
  obtain ⟨hlt, hget⟩ := List.getElem?_eq_some_iff.1 hk
  have hlt' := hlt
  rw [hvalues.length_eq] at hlt'
  have hvk := hvalues.get hlt hlt'
  rw [List.get_eq_getElem, hget, hv] at hvk
  rw [output?, outputIndex?_eq_some hname, Option.bind_some, List.getElem?_eq_getElem hlt']
  exact congrArg some (Except.ok.inj hvk).symm

/-- Where the function has a value, every node below its outputs can be evaluated. -/
theorem NumberedBelow.evaluated (h : f.NumberedBelow n) {args : List (Argument α)}
    {values : List (Dense α)} (hv : f.eval args = .ok values) {e : Expr α}
    (he : Expr.Reachable (f.outputs.map (·.2)) e) : e.Evaluated (f.binding args) where
  checked x hx := h.check x (h.graph.below (f.mem_nodes_of_reachable he) hx)
  bound := h.bound (shapes_of_eval hv) (f.mem_nodes_of_reachable he)
  value := by
    rw [f.eval_eq_mapM_value h.isDag (shapes_of_eval hv)] at hv
    obtain ⟨vs, -, hv⟩ := Except.bind_eq_ok.1 hv
    obtain ⟨r, hr, hb⟩ := he
    exact Expr.exists_value_of_below (Except.exists_mapM_eq_ok.1 ⟨_, hv⟩ r hr) hb

/-- The nodes have the values that they have in the function wherever the inputs have them. -/
theorem NumberedBelow.computes (h : f.NumberedBelow n) {args : List (Argument α)}
    {values : List (Dense α)} (hv : f.eval args = .ok values) {env : Nat → Dense α}
    (henv : ∀ e ∈ nodesOf f.inputs, env e.id = f.binding args e.id) {x : Expr α}
    (hx : Expr.Reachable (f.outputs.map (·.2)) x) : x.Computes env (x.valueD (f.binding args)) := by
  have hcomputes := (h.evaluated hv hx).computes
  refine ⟨?_, hcomputes.shape⟩
  rw [← hcomputes.value]
  exact Expr.value_congr fun y hy hsymbol =>
    henv y (h.symbol y (f.mem_nodes_of_reachable (hx.below hy)) hsymbol)

end Eval

/-! ## An example -/

/-- An input and its square. -/
def square : List (Expr ℚ) :=
  let a := .symbol 0 "a" .scalar
  [a, .binary 1 .matmul a a]

/-- The function that squares a number can be evaluated. -/
theorem exists_square : ∃ f : Func ℚ, f.inputs = [("a", square[0])] ∧ f.outputs = [("y", square[1])] ∧
    f.NumberedBelow 2 ∧ (∀ e ∈ f.nodes, e.shape = .scalar) ∧
    ∃ values, f.eval [.scalar 3] = .ok values := by
  have hS : IsGraph {x | x ∈ square} :=
    isGraph_list (by simp [square, Expr.operands]) (by simp [square, Expr.id])
  have hnamed : Named [("a", square[0])] [("y", square[1])] := ⟨by decide, by decide, by decide, by decide⟩
  obtain ⟨f, hi, ho, hnumbered, hnodes⟩ := exists_of_list hS "f" hnamed (by simp [square]) (by simp [square])
    (by decide) (n := 2) (by decide)
  have hshape : ∀ e ∈ f.nodes, e.shape = .scalar := fun e he =>
    (by decide : ∀ e ∈ square, e.shape = .scalar) e (hnodes e he)
  have hargs : ([.scalar 3] : List (Argument ℚ)).map (·.shape) = f.inputShapes := by
    unfold inputShapes; rw [hi]; rfl
  refine ⟨f, hi, ho, hnumbered, hshape, exists_eval hnumbered.isDag hargs fun y hy => ?_⟩
  rw [ho] at hy
  rw [List.mem_singleton.1 hy]
  exact ⟨_, rfl⟩

end Func

end Lyapunov
