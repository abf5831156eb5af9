/-
Functions of one form. Inputs and outputs of one form make functions or fail with the same error, provided
that no name is repeated and all symbols are inputs. Over the same scalars functions of one form have the
same values and fail with the same errors.
-/
import Lyapunov.Proofs.Func.Nodes
import Lyapunov.Proofs.Graph.Renaming

namespace Lyapunov

variable {α β : Type} {ρ : Renaming} {φ : α → β}

/-- Named nodes of one form, with names that stand for each other. -/
structure AlikeNamed (ρ : Renaming) (φ : α → β) (p : String × Expr α) (q : String × Expr β) : Prop where
  name : ρ.name p.1 q.1
  node : Expr.Alike ρ φ p.2 q.2

/-- The nodes of named nodes of one form come in the same order. -/
theorem forall₂_order {l : List (String × Expr α)} {l' : List (String × Expr β)}
    (h : List.Forall₂ (AlikeNamed ρ φ) l l') :
    List.Forall₂ (Expr.Alike ρ φ) (Expr.topologicalOrder (l.map (·.2)))
      (Expr.topologicalOrder (l'.map (·.2))) :=
  Expr.forall₂_topologicalOrder (List.rel_map (fun _ _ hpq => hpq.node) h)

theorem shapes_of_alikeNamed {l : List (String × Expr α)} {l' : List (String × Expr β)}
    (h : List.Forall₂ (AlikeNamed ρ φ) l l') : l'.map (·.2.shape) = l.map (·.2.shape) := by
  rw [← List.forall₂_eq_eq_eq, List.forall₂_map_left_iff, List.forall₂_map_right_iff]
  exact h.flip.imp fun _ _ hpq => hpq.node.shape

namespace Func

/-- Functions of one form: their inputs and outputs are of one form, under names that stand for each other. -/
structure Alike (ρ : Renaming) (φ : α → β) (f : Func α) (f' : Func β) : Prop where
  inputs : List.Forall₂ (AlikeNamed ρ φ) f.inputs f'.inputs
  outputs : List.Forall₂ (AlikeNamed ρ φ) f.outputs f'.outputs

/-- Each node of the second function is of the form of one of the first. -/
theorem Alike.exists_node {f : Func α} {f' : Func β} (h : Alike ρ φ f f') {e' : Expr β} (he' : e' ∈ f'.nodes) :
    ∃ e ∈ f.nodes, Expr.Alike ρ φ e e' := by
  obtain ⟨r', hr', hbelow⟩ := he'
  have hroots : List.Forall₂ (Expr.Alike ρ φ) (f.inputs.map (·.2) ++ f.outputs.map (·.2))
      (f'.inputs.map (·.2) ++ f'.outputs.map (·.2)) :=
    List.rel_append (List.rel_map (fun _ _ hpq => hpq.node) h.inputs)
      (List.rel_map (fun _ _ hpq => hpq.node) h.outputs)
  obtain ⟨r, hr, hrr⟩ := Except.forall₂_exists_right hroots.flip r' hr'
  obtain ⟨e, he, hee⟩ := hrr.exists_below hbelow
  exact ⟨e, ⟨r, hr, he⟩, hee⟩

/-! ## Making functions -/

/-- Names and symbols pass the checks, and all symbols are inputs. -/
structure Closed (inputs outputs : List (String × Expr α)) : Prop extends Named inputs outputs where
  symbol : ∀ e ∈ Expr.topologicalOrder (outputs.map (·.2)), e.isSymbol = true →
    ∃ p ∈ inputs, p.2.id = e.id

/-- Then only operands that do not fit are refused. -/
theorem Closed.make_eq_error {name : String} {inputs outputs : List (String × Expr α)} {err : Error}
    (h : Closed inputs outputs) : make name inputs outputs = .error err ↔
      (Expr.topologicalOrder (outputs.map (·.2))).mapM (·.checkOperands) = .error err := by
  rw [Func.make_eq_error, compile_of_named h.toNamed]
  refine Tape.compile_eq_error_of_symbols fun e he hs => ?_
  obtain ⟨p, hp, hid⟩ := h.symbol e he hs
  exact ⟨p.2, List.mem_map_of_mem hp, hid⟩

/-- Inputs and outputs of one form make functions of one form or fail with the same error. -/
theorem Closed.make_alike {name name' : String} {inputs outputs : List (String × Expr α)}
    {inputs' outputs' : List (String × Expr β)} (h : Closed inputs outputs) (h' : Closed inputs' outputs')
    (hinputs : List.Forall₂ (AlikeNamed ρ φ) inputs inputs')
    (houtputs : List.Forall₂ (AlikeNamed ρ φ) outputs outputs') :
    (∃ err, make name inputs outputs = .error err ∧ make name' inputs' outputs' = .error err) ∨
      ∃ f f', make name inputs outputs = .ok f ∧ make name' inputs' outputs' = .ok f' ∧ Alike ρ φ f f' := by
  have hchecks : (Expr.topologicalOrder (outputs.map (·.2))).mapM (·.checkOperands) =
      (Expr.topologicalOrder (outputs'.map (·.2))).mapM (·.checkOperands) :=
    Except.mapM_congr_of_forall₂ ((forall₂_order houtputs).imp fun _ _ he => he.checkOperands.symm)
  have herror (err : Error) :
      make name inputs outputs = .error err ↔ make name' inputs' outputs' = .error err := by
    rw [h.make_eq_error, h'.make_eq_error, hchecks]
  cases hf : make name inputs outputs with
  | error err => exact .inl ⟨err, rfl, (herror err).1 hf⟩
  | ok f =>
    cases hf' : make name' inputs' outputs' with
    | error err =>
      rw [(herror err).2 hf'] at hf
      cases hf
    | ok f' =>
      obtain ⟨-, hi, ho⟩ := make_eq_ok hf
      obtain ⟨-, hi', ho'⟩ := make_eq_ok hf'
      refine .inr ⟨f, f', rfl, rfl, ?_, ?_⟩
      · rwa [hi, hi']
      · rwa [ho, ho']

/-! ## Values -/

section

variable {f f' : Func α} (h : Alike ρ id f f')

include h

theorem Alike.inputShapes : f'.inputShapes = f.inputShapes := shapes_of_alikeNamed h.inputs

theorem Alike.outputShapes : f'.outputShapes = f.outputShapes := shapes_of_alikeNamed h.outputs

variable [Scalar α] {n n' : Nat} (hf : f.NumberedBelow n) (hf' : f'.NumberedBelow n')
  {args : List (Argument α)} (hargs : args.map (·.shape) = f.inputShapes)

include hf hargs

theorem Alike.value_eq {e e' : Expr α} (hmem : e ∈ f.nodes) (he : Expr.Alike ρ id e e') :
    e.value (f.binding args) = e'.value (f'.binding args) := by
  refine value_eq_of_alike he fun x x' hx hs hxx' => ?_
  obtain ⟨p, hp, rfl⟩ := hf.symbol x (hf.graph.below hmem hx) hs
  obtain ⟨k, hk⟩ := List.mem_iff_getElem?.1 hp
  obtain ⟨q, hk', hpq⟩ := Except.forall₂_getElem? h.inputs hk
  have hlt : k < args.length := length_of_shapes hargs ▸ (List.getElem?_eq_some_iff.1 hk).1
  have harg : args[k]? = some args[k] := List.getElem?_eq_getElem hlt
  rw [f.binding_input hk harg, ← (ρ.oneToOne hpq.node.number hxx'.number).1 rfl, f'.binding_input hk' harg]

include hf'

/-- Functions of one form have the same values and fail with the same errors. -/
theorem Alike.eval_eq : f.eval args = f'.eval args := by
  have horder : (Expr.topologicalOrder (f.outputs.map (·.2))).mapM (·.value (f.binding args)) =
      (Expr.topologicalOrder (f'.outputs.map (·.2))).mapM (·.value (f'.binding args)) := by
    refine Except.mapM_congr_of_forall₂ (Except.forall₂_imp_of_mem (forall₂_order h.outputs) ?_)
    exact fun e hmem e' _ he => h.value_eq hf hargs (hf.order_mem_nodes e hmem) he
  have houtputs : (f.outputs.map (·.2)).mapM (·.value (f.binding args)) =
      (f'.outputs.map (·.2)).mapM (·.value (f'.binding args)) := by
    have hnodes : List.Forall₂ (Expr.Alike ρ id) (f.outputs.map (·.2)) (f'.outputs.map (·.2)) :=
      List.rel_map (fun _ _ hpq => hpq.node) h.outputs
    refine Except.mapM_congr_of_forall₂ (Except.forall₂_imp_of_mem hnodes ?_)
    exact fun e hmem e' _ he => h.value_eq hf hargs (.root (List.mem_append_right _ hmem)) he
  rw [f.eval_eq_mapM_value hf.isDag hargs, f'.eval_eq_mapM_value hf'.isDag (hargs.trans h.inputShapes.symm),
    horder, houtputs]

end

end Func

end Lyapunov
