/-
What inputs and outputs are refused for. The inputs are checked first, one after the other, then the names
of the outputs, and then the nodes below the outputs in topological order. The first thing that is wrong
gives the error; nodes that no output needs are not looked at.
-/
import Lyapunov.Proofs.Func.Evaluation

namespace Lyapunov

variable {α : Type}

namespace Func

/-! ## Inputs -/

/-- What is wrong with an input after those before it. -/
inductive InputFault (before : List (String × Expr α)) (p : String × Expr α) : FunctionFault → Prop where
  | notSymbol : p.2.isSymbol = false → InputFault before p (.notSymbol p.1)
  | repeatedName : p.2.isSymbol = true → p.1 ∈ before.map (·.1) → InputFault before p (.repeatedInput p.1)
  | repeatedSymbol : p.2.isSymbol = true → p.1 ∉ before.map (·.1) → p.2 ∈ before.map (·.2) →
      InputFault before p .repeatedSymbol

/-- Inputs that are different symbols with different names. -/
structure InputsAccepted (inputs : List (String × Expr α)) : Prop where
  symbols : ∀ p ∈ inputs, p.2.isSymbol = true
  names : (inputs.map (·.1)).Nodup
  nodes : (inputs.map (·.2)).Nodup

theorem checkInputs_append {function : String} {names : List String} {ids : List Nat}
    (xs ys : List (String × Expr α)) :
    checkInputs function names ids (xs ++ ys) = (checkInputs function names ids xs >>= fun _ =>
      checkInputs function ((xs.map (·.1)).reverse ++ names) ((xs.map (·.2.id)).reverse ++ ids) ys) := by
  induction xs generalizing names ids with
  | nil => rfl
  | cons p xs ih =>
    obtain ⟨name, e⟩ := p
    simp only [List.cons_append, checkInputs, List.map_cons, List.reverse_cons, List.append_assoc,
      List.nil_append]
    split
    · rfl
    split
    · rfl
    split
    · rfl
    · exact ih

section Graph

variable {S : Set (Expr α)} (hS : IsGraph S)

include hS

/-- In a graph nodes are told apart by their numbers. -/
theorem id_mem_map_iff {ps : List (String × Expr α)} {e : Expr α} (hps : ∀ p ∈ ps, p.2 ∈ S) (he : e ∈ S) :
    e.id ∈ ps.map (·.2.id) ↔ e ∈ ps.map (·.2) := by
  simp only [List.mem_map]
  constructor
  · rintro ⟨p, hp, hid⟩
    exact ⟨p, hp, hS.unique _ (hps p hp) _ he hid⟩
  · rintro ⟨p, hp, rfl⟩
    exact ⟨p, hp, rfl⟩

theorem nodup_map_id_iff {ps : List (String × Expr α)} (hps : ∀ p ∈ ps, p.2 ∈ S) :
    (ps.map (·.2.id)).Nodup ↔ (ps.map (·.2)).Nodup := by
  have hmap : ps.map (·.2.id) = (ps.map (·.2)).map Expr.id := by rw [List.map_map]; rfl
  rw [hmap]
  refine ⟨.of_map _, fun h => h.map_on fun x hx y hy => ?_⟩
  obtain ⟨p, hp, rfl⟩ := List.mem_map.1 hx
  obtain ⟨q, hq, rfl⟩ := List.mem_map.1 hy
  exact hS.unique _ (hps p hp) _ (hps q hq)

theorem checkInputs_eq_ok_iff (function : String) {inputs : List (String × Expr α)}
    (hinputs : ∀ p ∈ inputs, p.2 ∈ S) :
    checkInputs function [] [] inputs = .ok () ↔ InputsAccepted inputs := by
  rw [checkInputs_eq_ok, nodup_map_id_iff hS hinputs]
  constructor
  · rintro ⟨h1, ⟨h2, -⟩, h3, -⟩
    exact ⟨h1, h2, h3⟩
  · rintro ⟨h1, h2, h3⟩
    exact ⟨h1, ⟨h2, by simp⟩, h3, by simp⟩

/-- The check on one input finds its fault. -/
theorem checkInputs_singleton {function : String} {before : List (String × Expr α)}
    {p : String × Expr α} {err : Error} (hbefore : ∀ q ∈ before, q.2 ∈ S) (hp : p.2 ∈ S) :
    checkInputs function (before.map (·.1)).reverse (before.map (·.2.id)).reverse [p] = .error err ↔
      ∃ fault, InputFault before p fault ∧ err = .invalidFunction function fault := by
  have hnames : (before.map (·.1)).reverse.contains p.1 = true ↔ p.1 ∈ before.map (·.1) := by simp
  have hnodes : (before.map (·.2.id)).reverse.contains p.2.id = true ↔ p.2 ∈ before.map (·.2) := by
    rw [← id_mem_map_iff hS hbefore hp, List.contains_iff_mem, List.mem_reverse]
  simp only [checkInputs]
  by_cases hsymbol : p.2.isSymbol = true
  · by_cases hname : p.1 ∈ before.map (·.1)
    · rw [if_neg (by simp [hsymbol]), if_pos (hnames.2 hname)]
      constructor
      · intro h; cases h; exact ⟨_, .repeatedName hsymbol hname, rfl⟩
      · rintro ⟨_, hfault | _ | ⟨-, hnew⟩, rfl⟩
        · simp_all
        · rfl
        · exact absurd hname hnew
    · rw [if_neg (by simp [hsymbol]), if_neg (mt hnames.1 hname)]
      by_cases hnode : p.2 ∈ before.map (·.2)
      · rw [if_pos (hnodes.2 hnode)]
        constructor
        · intro h; cases h; exact ⟨_, .repeatedSymbol hsymbol hname hnode, rfl⟩
        · rintro ⟨_, hfault | ⟨-, hold⟩ | _, rfl⟩
          · simp_all
          · exact absurd hold hname
          · rfl
      · rw [if_neg (mt hnodes.1 hnode)]
        constructor
        · intro h; cases h
        · rintro ⟨_, hfault | ⟨-, hold⟩ | ⟨-, -, hold⟩, -⟩
          · simp_all
          · exact absurd hold hname
          · exact absurd hold hnode
  · rw [if_pos (by simpa using hsymbol)]
    constructor
    · intro h; cases h; exact ⟨_, .notSymbol (by simpa using hsymbol), rfl⟩
    · rintro ⟨_, _ | ⟨h, -⟩ | ⟨h, -, -⟩, rfl⟩
      · rfl
      · exact absurd h hsymbol
      · exact absurd h hsymbol

/-- The first input that offends gives the error. -/
theorem checkInputs_eq_error_iff {function : String} {inputs : List (String × Expr α)} {err : Error}
    (hinputs : ∀ p ∈ inputs, p.2 ∈ S) :
    checkInputs function [] [] inputs = .error err ↔ ∃ before p after, inputs = before ++ p :: after ∧
      InputsAccepted before ∧ ∃ fault, InputFault before p fault ∧ err = .invalidFunction function fault := by
  rw [Except.check_eq_error (fun before p err =>
    ∃ fault, InputFault before p fault ∧ err = .invalidFunction function fault) (fun _ h => by cases h)
    fun before p after err h => ?_]
  · refine exists_congr fun before => exists_congr fun p => exists_congr fun after =>
      and_congr_right fun h => and_congr_left' ?_
    rw [← checkInputs_eq_ok_iff hS function fun q hq => hinputs q (by rw [h]; simp [hq])]
    exact ⟨fun ⟨_, h⟩ => h, fun h => ⟨_, h⟩⟩
  · have hmem (q : String × Expr α) (hq : q ∈ before ++ [p]) : q.2 ∈ S :=
      hinputs q (by rw [h, List.append_cons]; exact List.mem_append_left _ hq)
    rw [checkInputs_append, Except.bind_eq_error, List.append_nil, List.append_nil,
      checkInputs_singleton hS (fun q hq => hmem q (List.mem_append_left _ hq)) (hmem p (by simp)),
      exists_and_right]

end Graph

/-! ## Outputs -/

theorem checkOutputs_append {function : String} {names : List String} (xs ys : List (String × Expr α)) :
    checkOutputs function names (xs ++ ys) = (checkOutputs function names xs >>= fun _ =>
      checkOutputs function ((xs.map (·.1)).reverse ++ names) ys) := by
  induction xs generalizing names with
  | nil => rfl
  | cons p xs ih =>
    obtain ⟨name, e⟩ := p
    simp only [List.cons_append, checkOutputs, List.map_cons, List.reverse_cons, List.append_assoc,
      List.nil_append]
    split
    · rfl
    · exact ih

/-- The first output under a name that another one has gives the error. -/
theorem checkOutputs_eq_error_iff {function : String} {outputs : List (String × Expr α)} {err : Error} :
    checkOutputs function [] outputs = .error err ↔ ∃ before p after, outputs = before ++ p :: after ∧
      (before.map (·.1)).Nodup ∧ p.1 ∈ before.map (·.1) ∧
      err = .invalidFunction function (.repeatedOutput p.1) := by
  have hok (before : List (String × Expr α)) :
      (∃ v, checkOutputs function [] before = .ok v) ↔ (before.map (·.1)).Nodup := by
    rw [Unique.exists_iff, checkOutputs_eq_ok]
    simp
  rw [Except.check_eq_error (fun before p err => p.1 ∈ before.map (·.1) ∧
    err = .invalidFunction function (.repeatedOutput p.1)) (fun _ h => by cases h)
    fun before p after err h => ?_]
  · simp only [hok]
  · rw [checkOutputs_append, Except.bind_eq_error, exists_and_right]
    refine or_congr_right (and_congr_right fun _ => ?_)
    by_cases hname : p.1 ∈ before.map (·.1)
    · simp only [checkOutputs, List.append_nil, List.contains_iff_mem, List.mem_reverse, hname, if_true]
      exact ⟨fun h => ⟨trivial, by cases h; rfl⟩, fun h => h.2 ▸ rfl⟩
    · simp only [checkOutputs, List.append_nil, List.contains_iff_mem, List.mem_reverse, hname, if_false]
      exact ⟨fun h => (by cases h), fun h => h.1.elim⟩

/-! ## Nodes -/

/-- What is wrong with a node below the outputs: its operands do not fit, or else it is a symbol that is
no input. -/
inductive NodeFault (inputs : List (String × Expr α)) (e : Expr α) : Error → Prop where
  | operands {err : Error} : e.checkOperands = .error err → NodeFault inputs e err
  | free {name : String} : e.checkOperands = .ok () → e.symbolName? = some name →
      e ∉ inputs.map (·.2) → NodeFault inputs e (.freeSymbol name)

/-- A node with operands that fit, and if it is a symbol an input. -/
structure NodeAccepted (inputs : List (String × Expr α)) (e : Expr α) : Prop where
  operands : e.checkOperands = .ok ()
  input : e.isSymbol = true → e ∈ inputs.map (·.2)

section Graph

variable {inputs outputs : List (String × Expr α)} {S : Set (Expr α)} (hS : IsGraph S)
  (hinputs : ∀ p ∈ inputs, p.2 ∈ S)

include hS hinputs

theorem exists_input_iff {e : Expr α} (he : e ∈ S) :
    (∃ y ∈ inputs.map (·.2), y.id = e.id) ↔ e ∈ inputs.map (·.2) := by
  rw [← id_mem_map_iff hS hinputs he]
  simp only [List.mem_map, exists_exists_and_eq_and]

theorem nodeAccepted_iff {e : Expr α} (he : e ∈ S) : NodeAccepted inputs e ↔
    e.checkOperands = .ok () ∧ (e.isSymbol = true → ∃ y ∈ inputs.map (·.2), y.id = e.id) := by
  rw [exists_input_iff hS hinputs he]
  exact ⟨fun ⟨h1, h2⟩ => ⟨h1, h2⟩, fun ⟨h1, h2⟩ => ⟨h1, h2⟩⟩

theorem nodeFault_iff {e : Expr α} (he : e ∈ S) {err : Error} : NodeFault inputs e err ↔
    e.checkOperands = .error err ∨ e.checkOperands = .ok () ∧ ∃ name, e.symbolName? = some name ∧
      (∀ y ∈ inputs.map (·.2), y.id ≠ e.id) ∧ err = .freeSymbol name := by
  have hnone : (∀ y ∈ inputs.map (·.2), y.id ≠ e.id) ↔ e ∉ inputs.map (·.2) := by
    rw [← exists_input_iff hS hinputs he]
    simp only [ne_eq, not_exists, not_and]
  rw [hnone]
  constructor
  · rintro (h | ⟨h, hname, hnew⟩)
    · exact .inl h
    · exact .inr ⟨h, _, hname, hnew, rfl⟩
  · rintro (h | ⟨h, name, hname, hnew, rfl⟩)
    · exact .operands h
    · exact .free h hname hnew

/-- The first node in topological order that offends gives the error. -/
theorem tapeCompile_eq_error_iff (houtputs : ∀ p ∈ outputs, p.2 ∈ S) {err : Error} :
    Tape.compile (inputs.map (·.2)) (outputs.map (·.2)) = .error err ↔ ∃ before e after,
      Expr.topologicalOrder (outputs.map (·.2)) = before ++ e :: after ∧
        (∀ x ∈ before, NodeAccepted inputs x) ∧ NodeFault inputs e err := by
  have hroots : ∀ r ∈ outputs.map (·.2), r ∈ S := List.forall_mem_map.2 houtputs
  rw [Tape.compile_eq_error]
  refine exists_congr fun before => exists_congr fun e => exists_congr fun after =>
    and_congr_right fun hsplit => ?_
  have hnode (x : Expr α) (hx : x ∈ before ++ e :: after) : x ∈ S :=
    hS.reachable hroots ((Expr.mem_topologicalOrder (hS.isDag hroots)).1 (hsplit ▸ hx))
  rw [nodeFault_iff hS hinputs (hnode e (by simp))]
  refine and_congr_left' (forall₂_congr fun x hx => ?_)
  rw [nodeAccepted_iff hS hinputs (hnode x (List.mem_append_left _ hx))]

end Graph

/-! ## Functions -/

/-- Inputs and outputs that make a function: the inputs are different symbols, no two inputs and no two
outputs have one name, and every node that an output needs has operands that fit and is an input if it is
a symbol. -/
structure WellFormed (inputs outputs : List (String × Expr α)) : Prop where
  inputsAccepted : InputsAccepted inputs
  outputNames : (outputs.map (·.1)).Nodup
  nodesAccepted : ∀ e, Expr.Reachable (outputs.map (·.2)) e → NodeAccepted inputs e

/-- The error for inputs and outputs that make no function: that of the first input that offends, else
that of the first output that offends, else that of the first node that offends in topological order. -/
inductive RefusedFor (function : String) (inputs outputs : List (String × Expr α)) : Error → Prop where
  | input {before after : List (String × Expr α)} {p : String × Expr α} {fault : FunctionFault} :
      inputs = before ++ p :: after → InputsAccepted before → InputFault before p fault →
        RefusedFor function inputs outputs (.invalidFunction function fault)
  | output {before after : List (String × Expr α)} {p : String × Expr α} : InputsAccepted inputs →
      outputs = before ++ p :: after → (before.map (·.1)).Nodup → p.1 ∈ before.map (·.1) →
        RefusedFor function inputs outputs (.invalidFunction function (.repeatedOutput p.1))
  | node {before after : List (Expr α)} {e : Expr α} {err : Error} : InputsAccepted inputs →
      (outputs.map (·.1)).Nodup → Expr.topologicalOrder (outputs.map (·.2)) = before ++ e :: after →
        (∀ x ∈ before, NodeAccepted inputs x) → NodeFault inputs e err →
          RefusedFor function inputs outputs err

section Graph

variable {inputs outputs : List (String × Expr α)} {S : Set (Expr α)} (hS : IsGraph S)
  (hinputs : ∀ p ∈ inputs, p.2 ∈ S) (houtputs : ∀ p ∈ outputs, p.2 ∈ S)

include hS hinputs houtputs

theorem exists_make_iff_wellFormed (name : String) :
    (∃ f, make name inputs outputs = .ok f) ↔ WellFormed inputs outputs := by
  have hroots := List.forall_mem_map.2 houtputs
  have hnodes (e : Expr α) (he : Expr.Reachable (outputs.map (·.2)) e) :=
    nodeAccepted_iff hS hinputs (hS.reachable hroots he)
  simp only [List.mem_map, exists_exists_and_eq_and] at hnodes
  rw [exists_make_iff (hS.isDag hroots)]
  constructor
  · rintro ⟨⟨hsymbols, hnames, hids, houtputNames⟩, haccepted⟩
    exact ⟨⟨hsymbols, hnames, (nodup_map_id_iff hS hinputs).1 hids⟩, houtputNames,
      fun e he => (hnodes e he).2 (haccepted e he)⟩
  · rintro ⟨⟨hsymbols, hnames, hsame⟩, houtputNames, haccepted⟩
    exact ⟨⟨hsymbols, hnames, (nodup_map_id_iff hS hinputs).2 hsame, houtputNames⟩,
      fun e he => (hnodes e he).1 (haccepted e he)⟩

theorem make_eq_error_iff {name : String} {err : Error} :
    make name inputs outputs = .error err ↔ RefusedFor name inputs outputs err := by
  have hinputsOk := checkInputs_eq_ok_iff hS name hinputs
  have houtputsOk : checkOutputs name [] outputs = .ok () ↔ (outputs.map (·.1)).Nodup := by
    rw [checkOutputs_eq_ok]
    simp
  rw [make_eq_error, compile, Except.bind_eq_error, Unique.exists_iff, Except.bind_eq_error,
    Unique.exists_iff, checkInputs_eq_error_iff hS hinputs, checkOutputs_eq_error_iff,
    tapeCompile_eq_error_iff hS hinputs houtputs]
  constructor
  · rintro (⟨before, p, after, hsplit, hbefore, fault, hfault, rfl⟩ |
      ⟨hi, ⟨before, p, after, hsplit, hbefore, hp, rfl⟩ | ⟨ho, before, e, after, hsplit, hbefore, he⟩⟩)
    · exact .input hsplit hbefore hfault
    · exact .output (hinputsOk.1 hi) hsplit hbefore hp
    · exact .node (hinputsOk.1 hi) (houtputsOk.1 ho) hsplit hbefore he
  · rintro (⟨hsplit, hbefore, hfault⟩ | ⟨hi, hsplit, hbefore, hp⟩ | ⟨hi, ho, hsplit, hbefore, he⟩)
    · exact .inl ⟨_, _, _, hsplit, hbefore, _, hfault, rfl⟩
    · exact .inr ⟨hinputsOk.2 hi, .inl ⟨_, _, _, hsplit, hbefore, hp, rfl⟩⟩
    · exact .inr ⟨hinputsOk.2 hi, .inr ⟨houtputsOk.2 ho, _, _, _, hsplit, hbefore, he⟩⟩

end Graph

/-- Exactly the well-formed inputs and outputs make a function, which has them and the name; the others
are refused for the first thing that is wrong with them. -/
theorem make_spec {inputs outputs : List (String × Expr α)} (hdag : IsDag ((inputs ++ outputs).map (·.2)))
    (name : String) :
    ((∃ f, make name inputs outputs = .ok f ∧ f.name = name ∧ f.inputs = inputs ∧ f.outputs = outputs) ↔
      WellFormed inputs outputs) ∧
    ∀ err, make name inputs outputs = .error err ↔ RefusedFor name inputs outputs err := by
  have hroot (p : String × Expr α) (hp : p ∈ inputs ++ outputs) :
      Expr.Reachable ((inputs ++ outputs).map (·.2)) p.2 := .root (List.mem_map_of_mem hp)
  have hinputs : ∀ p ∈ inputs, Expr.Reachable ((inputs ++ outputs).map (·.2)) p.2 := fun p hp =>
    hroot p (List.mem_append_left _ hp)
  have houtputs : ∀ p ∈ outputs, Expr.Reachable ((inputs ++ outputs).map (·.2)) p.2 := fun p hp =>
    hroot p (List.mem_append_right _ hp)
  refine ⟨?_, fun err => make_eq_error_iff hdag hinputs houtputs⟩
  rw [← exists_make_iff_wellFormed hdag hinputs houtputs name]
  exact exists_congr fun f => ⟨fun h => h.1, fun h => ⟨h, make_eq_ok h⟩⟩

/-- Of the inputs of a sum with a condition one can be missing or have the name of the other. The order
of the nodes says which symbol is found to be free. -/
theorem make_spec_doubleIf :
    (∃ f, make "f" (["a", "c"].zip doubleIf) [("y", doubleIf[3])] = .ok f) ∧
    make "f" [("a", doubleIf[0]), ("a", doubleIf[0])] [("y", doubleIf[3])] =
      .error (.invalidFunction "f" (.repeatedInput "a")) ∧
    make "f" [] [("y", doubleIf[3])] = .error (.freeSymbol "a") ∧
    make "f" [("a", doubleIf[0])] [("y", doubleIf[3])] = .error (.freeSymbol "c") := by
  have hS : IsGraph {x | x ∈ doubleIf} :=
    isGraph_list (by simp [doubleIf, Expr.operands]) (by simp [doubleIf, Expr.id])
  have horder : Expr.topologicalOrder [doubleIf[3]] = [doubleIf[0], doubleIf[2], doubleIf[1], doubleIf[3]] := by
    simp [Expr.topologicalOrder_eq, Expr.postorder, doubleIf, Walk.visit, Walk.start, Walk.enter, Walk.leave, Expr.id]
  have hspec (inputs : List (String × Expr ℚ)) (h : ∀ p ∈ inputs, p.2 ∈ doubleIf) :=
    @make_spec _ inputs [("y", doubleIf[3])] (hS.isDag (List.forall_mem_map.2 fun p hp =>
      (List.mem_append.1 hp).elim (h p) fun hy => by rw [List.mem_singleton.1 hy]; simp [doubleIf])) "f"
  refine ⟨?_, ?_, ?_, ?_⟩
  · obtain ⟨f, hf, -⟩ := (hspec (["a", "c"].zip doubleIf) (by simp [doubleIf])).1.2
      ⟨⟨by decide, by decide, by simp [doubleIf]⟩, by decide, fun e he => by
        have : e ∈ doubleIf := hS.reachable (by simp [doubleIf]) he
        simp only [doubleIf, List.mem_cons, List.not_mem_nil, or_false] at this
        rcases this with rfl | rfl | rfl | rfl <;> refine ⟨rfl, ?_⟩ <;>
          simp [doubleIf, Expr.isSymbol, Expr.symbolName?]⟩
    exact ⟨f, hf⟩
  · have hsplit : [("a", doubleIf[0]), ("a", doubleIf[0])] =
        [("a", doubleIf[0])] ++ ("a", doubleIf[0]) :: [] := rfl
    exact ((hspec [("a", doubleIf[0]), ("a", doubleIf[0])] (by simp [doubleIf])).2 _).2
      (.input hsplit ⟨by decide, by decide, by simp⟩ (.repeatedName rfl (by decide)))
  · exact ((hspec [] (by simp)).2 _).2 (.node ⟨by decide, by decide, by simp⟩ (by decide)
      (horder.trans (List.nil_append _).symm) (by simp) (.free rfl rfl (by simp)))
  · have hsplit : [doubleIf[0], doubleIf[2], doubleIf[1], doubleIf[3]] =
        [doubleIf[0], doubleIf[2]] ++ doubleIf[1] :: [doubleIf[3]] := rfl
    refine ((hspec [("a", doubleIf[0])] (by simp [doubleIf])).2 _).2 (.node ⟨by decide, by decide, by simp⟩
      (by decide) (horder.trans hsplit) (fun x hx => ?_) (.free rfl rfl (by simp [doubleIf])))
    rcases List.mem_pair.1 hx with rfl | rfl
    · exact ⟨rfl, by simp⟩
    · exact ⟨rfl, fun h => by cases h⟩

end Func

end Lyapunov
