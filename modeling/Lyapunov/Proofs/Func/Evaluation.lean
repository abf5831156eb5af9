/-
A function computes the values of its outputs. On arguments of the shapes of its inputs the evaluation
succeeds exactly when every node that the outputs can reach has a value, and then returns the values
of the outputs; otherwise it fails with the error of the first node in topological order without one.
Nothing is assumed of the scalars.
-/
import Lyapunov.Proofs.Exact.Scalar
import Lyapunov.Proofs.Func.Checks
import Lyapunov.Proofs.Tape.Compile

namespace Lyapunov

variable {α : Type}

namespace Func

/-- There is a function with given inputs and outputs exactly when their names and symbols pass the
checks, operands fit and symbols are inputs. -/
theorem exists_make_iff {name : String} {inputs outputs : List (String × Expr α)}
    (hdag : IsDag (outputs.map (·.2))) :
    (∃ f, make name inputs outputs = .ok f) ↔ Named inputs outputs ∧
      ∀ e, Expr.Reachable (outputs.map (·.2)) e →
        e.checkOperands = .ok () ∧ (e.isSymbol = true → ∃ x ∈ inputs, x.2.id = e.id) := by
  have htape := @Tape.exists_compile _ (inputs.map (·.2)) _ hdag
  simp only [List.mem_map, exists_exists_and_eq_and] at htape
  rw [exists_make, ← htape]
  simp only [compile_eq_ok, exists_and_left]

/-- Nodes that fit, with their operands among them, make functions of the symbols among them. -/
theorem exists_make_of_list {nodes : List (Expr α)} (hS : IsGraph {e | e ∈ nodes}) (name : String)
    {inputs outputs : List (String × Expr α)} (hnamed : Named inputs outputs)
    (houtputs : ∀ p ∈ outputs, p.2 ∈ nodes)
    (hnodes : ∀ e ∈ nodes, e.checkOperands = .ok () ∧ (e.isSymbol = true → ∃ x ∈ inputs, x.2.id = e.id)) :
    ∃ f, make name inputs outputs = .ok f := by
  have hroots : ∀ r ∈ outputs.map (·.2), r ∈ nodes := List.forall_mem_map.2 houtputs
  exact (exists_make_iff (hS.isDag hroots)).2 ⟨hnamed, fun e he => hnodes e (hS.reachable hroots he)⟩

variable [Scalar α]

/-- The value bound to the symbol with number `i`: the argument in the place of its input. -/
def binding (f : Func α) (args : List (Argument α)) (i : Nat) : Dense α :=
  match (f.inputs.zip args).find? fun p => p.1.2.id == i with
  | some p => p.2.toDense
  | none => Tape.noValue

omit [Scalar α] in
theorem find?_zip {inputs : List (String × Expr α)} (hids : (inputs.map (·.2.id)).Nodup)
    {args : List (Argument α)} {k : Nat} {input : String × Expr α} {arg : Argument α}
    (hi : inputs[k]? = some input) (ha : args[k]? = some arg) :
    (inputs.zip args).find? (fun p => p.1.2.id == input.2.id) = some (input, arg) := by
  induction inputs generalizing args k with
  | nil => simp at hi
  | cons q inputs ih =>
    cases args with
    | nil => simp at ha
    | cons b args =>
      rw [List.map_cons, List.nodup_cons] at hids
      rw [List.zip_cons_cons]
      cases k with
      | zero =>
        simp only [List.getElem?_cons_zero, Option.some.injEq] at hi ha
        subst hi ha
        rw [List.find?_cons_of_pos (by simp)]
      | succ k =>
        rw [List.getElem?_cons_succ] at hi ha
        have hne : q.2.id ≠ input.2.id := fun hid =>
          hids.1 (List.mem_map.2 ⟨input, List.mem_of_getElem? hi, hid.symm⟩)
        rw [List.find?_cons_of_neg (by simpa using hne)]
        exact ih hids.2 hi ha

/-- The symbol of an input has the argument in its place as its value. -/
theorem binding_input (f : Func α) {args : List (Argument α)} {k : Nat} {input : String × Expr α}
    {arg : Argument α} (hi : f.inputs[k]? = some input) (ha : args[k]? = some arg) :
    f.binding args input.2.id = arg.toDense := by
  unfold binding
  rw [find?_zip f.named.inputIds hi ha]

/-- Evaluating a function takes the values of the reachable nodes in topological order, and then
those of the outputs. -/
theorem eval_eq_mapM_value (f : Func α) (hdag : IsDag (f.outputs.map (·.2)))
    {args : List (Argument α)} (hargs : args.map (·.shape) = f.inputShapes) :
    f.eval args = (do
      let _ ← (Expr.topologicalOrder (f.outputs.map (·.2))).mapM (·.value (f.binding args))
      (f.outputs.map (·.2)).mapM (·.value (f.binding args))) := by
  unfold eval
  rw [checkArguments_eq_ok.2 hargs]
  refine Tape.eval_compile hdag f.tape_eq fun i p hp => ?_
  obtain ⟨e, he, rfl⟩ := Tape.getElem_of_positionsOf hp
  rw [List.getElem?_map, Option.map_eq_some_iff] at he
  obtain ⟨input, hinput, rfl⟩ := he
  have hlen : args.length = f.inputs.length := by
    simpa [inputShapes] using congrArg List.length hargs
  obtain ⟨hlt, -⟩ := List.getElem?_eq_some_iff.1 hinput
  have ha : args[p]? = some args[p] := List.getElem?_eq_getElem (by omega)
  rw [f.binding_input hinput ha, List.getElem?_map, ha]
  rfl

/-- On arguments of the shapes of the inputs, a function whose numbers stand for single nodes
returns the values of its outputs when every reachable node has a value, and otherwise the error of
the first node in topological order without one. -/
theorem eval_spec (f : Func α) (hdag : IsDag (f.outputs.map (·.2))) (args : List (Argument α))
    (hargs : args.map (·.shape) = f.inputShapes) :
    ((∃ values, f.eval args = .ok values) ↔
      ∀ e, Expr.Reachable (f.outputs.map (·.2)) e → ∃ v, e.value (f.binding args) = .ok v) ∧
    (∀ values, f.eval args = .ok values →
      List.Forall₂ (fun y v => y.value (f.binding args) = .ok v) (f.outputs.map (·.2)) values) ∧
    (∀ error, f.eval args = .error error ↔
      ∃ before e after, Expr.topologicalOrder (f.outputs.map (·.2)) = before ++ e :: after ∧
        (∀ x ∈ before, ∃ v, x.value (f.binding args) = .ok v) ∧
        e.value (f.binding args) = .error error) := by
  obtain ⟨l, hl, -, hmem⟩ := Expr.topologicalOrder_spec hdag
  have heval := f.eval_eq_mapM_value hdag hargs
  rw [hl] at heval ⊢
  have hvalues : (∃ values, f.eval args = .ok values) ↔
      ∃ vs, l.reverse.mapM (·.value (f.binding args)) = .ok vs := by
    rw [heval]
    constructor
    · rintro ⟨values, h⟩
      obtain ⟨vs, hvs, -⟩ := Except.bind_eq_ok.1 h
      exact ⟨vs, hvs⟩
    · rintro ⟨vs, hvs⟩
      have hall := Except.exists_mapM_eq_ok.1 ⟨vs, hvs⟩
      obtain ⟨values, h⟩ := Except.exists_mapM_eq_ok.2 fun y (hy : y ∈ f.outputs.map (·.2)) =>
        hall y (List.mem_reverse.2 ((hmem y).2 (.root hy)))
      exact ⟨values, Except.bind_eq_ok.2 ⟨vs, hvs, h⟩⟩
  refine ⟨?_, fun values h => ?_, fun error => ?_⟩
  · rw [hvalues, Except.exists_mapM_eq_ok]
    simp only [List.mem_reverse, hmem]
  · rw [heval] at h
    obtain ⟨vs, -, h⟩ := Except.bind_eq_ok.1 h
    exact Except.mapM_eq_ok.1 h
  · rw [← Except.mapM_eq_error, heval]
    cases hvs : l.reverse.mapM (·.value (f.binding args)) with
    | error e => exact Iff.rfl
    | ok vs =>
      -- all outputs have values then, so neither side fails
      obtain ⟨values, h⟩ := hvalues.2 ⟨vs, hvs⟩
      rw [heval, hvs] at h
      rw [h]
      constructor <;> intro k <;> cases k

/-- Twice an input, provided that another one is one. -/
def doubleIf : List (Expr ℚ) :=
  let a := .symbol 0 "a" .scalar
  let c := .symbol 1 "c" .scalar
  let s := .binary 2 .add a a
  [a, c, s, .binary 3 (.assertion "c is one") s c]

/-- The sum, which is shared, and an input are outputs as well. -/
theorem eval_doubleIf :
    ∃ f : Func ℚ, f.inputs = ["a", "c"].zip doubleIf ∧
      f.outputs = ["a", "c", "s", "y"].zip doubleIf ++ [("again", doubleIf[3])] ∧
      IsDag (f.outputs.map (·.2)) ∧
      ([.scalar 2, .scalar 1] : List (Argument ℚ)).map (·.shape) = f.inputShapes ∧
      ∃ values, f.eval [.scalar 2, .scalar 1] = .ok values := by
  have hS : IsGraph {x | x ∈ doubleIf} :=
    isGraph_list (by simp [doubleIf, Expr.operands]) (by simp [doubleIf, Expr.id])
  have hroots : ∀ r ∈ (["a", "c", "s", "y"].zip doubleIf ++ [("again", doubleIf[3])]).map (·.2),
      r ∈ doubleIf := by simp [doubleIf]
  have hdag := hS.isDag hroots
  obtain ⟨f, hf⟩ := (@exists_make_iff _ "f" (["a", "c"].zip doubleIf) _ hdag).2
    ⟨⟨by decide, by decide, by decide, by decide⟩, fun e he => by
      have : e ∈ doubleIf := hS.reachable hroots he
      simp only [doubleIf, List.mem_cons, List.not_mem_nil, or_false] at this
      rcases this with rfl | rfl | rfl | rfl <;> refine ⟨rfl, ?_⟩ <;> decide⟩
  obtain ⟨-, hi, ho⟩ := make_eq_ok hf
  have hargs : ([.scalar 2, .scalar 1] : List (Argument ℚ)).map (·.shape) = f.inputShapes := by
    unfold inputShapes; rw [hi]; rfl
  rw [← ho] at hdag
  refine ⟨f, hi, ho, hdag, hargs, (f.eval_spec hdag _ hargs).1.2 fun e he => ?_⟩
  have : e ∈ doubleIf := hS.reachable hroots (ho ▸ he)
  have ha : f.binding [.scalar 2, .scalar 1] 0 = .ofScalar 2 := by
    unfold binding; rw [hi]; rfl
  have hc : f.binding [.scalar 2, .scalar 1] 1 = .ofScalar 1 := by
    unfold binding; rw [hi]; rfl
  simp only [doubleIf, List.mem_cons, List.not_mem_nil, or_false] at this
  rcases this with rfl | rfl | rfl | rfl
  · exact ⟨_, rfl⟩
  · exact ⟨_, rfl⟩
  · exact ⟨_, rfl⟩
  · refine ⟨(Dense.ofScalar 2).add (.ofScalar 2), ?_⟩
    rw [Expr.value_binary, Expr.value_binary, Expr.value_symbol, Expr.value_symbol, ha, hc]
    rfl

end Func

end Lyapunov
