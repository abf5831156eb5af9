/-
Calls by name. A call with named arguments is the evaluation with arguments by position, where each input
takes the last argument given under its name. Otherwise it is refused: for the first name that is no input,
then for the first input without an argument, then for the first argument of another shape than its input.
`CallEnds` says so without the places that arguments are put into; it has one outcome for all arguments, that
of the call.
-/
import Std.Data.HashMap.Lemmas
import Lyapunov.Proofs.Func.Evaluation
import Lyapunov.Proofs.Tape.Shapes

namespace Lyapunov

namespace Func

variable {α : Type}

/-! ## Names -/

/-- The last argument given under the name is `x`. -/
def LastGiven (args : List (String × Argument α)) (name : String) (x : Argument α) : Prop :=
  ∃ before after, args = before ++ (name, x) :: after ∧ name ∉ after.map (·.1)

/-- The arguments have names of inputs, and `xs` are the last ones given for each input, in the order of the
inputs. -/
structure Arranges (f : Func α) (args : List (String × Argument α)) (xs : List (Argument α)) : Prop where
  known : ∀ p ∈ args, p.1 ∈ f.inputNames
  last : List.Forall₂ (LastGiven args) f.inputNames xs

/-- The error that the names of the arguments are refused with. -/
inductive NameFault (f : Func α) (args : List (String × Argument α)) : Error → Prop where
  | unknownInput {before after : List (String × Argument α)} {name : String} {x : Argument α} :
    args = before ++ (name, x) :: after → (∀ p ∈ before, p.1 ∈ f.inputNames) → name ∉ f.inputNames →
    NameFault f args (.unknownInput name)
  | missingInput {before after : List String} {name : String} :
    (∀ p ∈ args, p.1 ∈ f.inputNames) → f.inputNames = before ++ name :: after →
    (∀ n ∈ before, n ∈ args.map (·.1)) → name ∉ args.map (·.1) →
    NameFault f args (.missingInput name)

theorem argument?_eq_some_iff {args : List (String × Argument α)} {name : String} {x : Argument α} :
    argument? args name = some x ↔ LastGiven args name x := by
  rw [argument?, Option.map_eq_some_iff]
  constructor
  · rintro ⟨⟨n, x⟩, hfind, rfl⟩
    obtain ⟨hname, after, before, hsplit, hafter⟩ := List.find?_eq_some_iff_append.1 hfind
    obtain rfl := beq_iff_eq.1 hname
    refine ⟨before.reverse, after.reverse, ?_, fun hmem => ?_⟩
    · rw [← List.reverse_reverse args, hsplit]
      simp
    · obtain ⟨q, hq, hqn⟩ := List.mem_map.1 hmem
      simpa [hqn] using hafter q (List.mem_reverse.1 hq)
  · rintro ⟨before, after, rfl, hafter⟩
    refine ⟨(name, x), List.find?_eq_some_iff_append.2
      ⟨BEq.rfl, after.reverse, before.reverse, by simp, fun q hq => ?_⟩, rfl⟩
    have hne : q.1 ≠ name := fun hqn => hafter (hqn ▸ List.mem_map_of_mem (List.mem_reverse.1 hq))
    simpa using hne

/-- Where not all elements have a property, there is a first one without it. -/
theorem exists_first_not {β : Type} {P : β → Prop} {l : List β} (h : ¬ ∀ x ∈ l, P x) :
    ∃ before x after, l = before ++ x :: after ∧ (∀ y ∈ before, P y) ∧ ¬ P x := by
  induction l with
  | nil => exact absurd (by simp) h
  | cons a l ih =>
    by_cases ha : P a
    · obtain ⟨before, x, after, rfl, hbefore, hx⟩ := ih fun hl => h (List.forall_mem_cons.2 ⟨ha, hl⟩)
      exact ⟨a :: before, x, after, rfl, List.forall_mem_cons.2 ⟨ha, hbefore⟩, hx⟩
    · exact ⟨[], a, l, rfl, by simp, ha⟩

variable {f : Func α} {args : List (String × Argument α)}

theorem arrange_eq_ok_iff {xs : List (Argument α)} : f.arrange args = .ok xs ↔ f.Arranges args xs := by
  by_cases hknown : ∀ p ∈ args, p.1 ∈ f.inputNames
  · have hlast (name : String) (x : Argument α) : lastArgument args name = .ok x ↔ LastGiven args name x :=
      lastArgument_eq_ok.trans argument?_eq_some_iff
    rw [arrange_of_known hknown, Except.mapM_eq_ok]
    exact ⟨fun h => ⟨hknown, h.imp fun name x => (hlast name x).1⟩,
      fun h => h.last.imp fun name x => (hlast name x).2⟩
  · obtain ⟨before, p, after, rfl, hbefore, hp⟩ := exists_first_not hknown
    rw [arrange_of_unknown hbefore hp]
    exact ⟨fun h => (by cases h), fun h => absurd h.known hknown⟩

theorem arrange_eq_error {err : Error} : f.arrange args = .error err ↔ f.NameFault args err := by
  have hgiven (name : String) : (∃ x, lastArgument args name = .ok x) ↔ name ∈ args.map (·.1) := by
    rw [← not_iff_not, ← argument?_eq_none, Option.eq_none_iff_forall_ne_some, not_exists]
    exact forall_congr' fun x => not_congr lastArgument_eq_ok
  constructor
  · intro h
    by_cases hknown : ∀ p ∈ args, p.1 ∈ f.inputNames
    · rw [arrange_of_known hknown, Except.mapM_eq_error] at h
      obtain ⟨before, name, after, hsplit, hbefore, hname⟩ := h
      obtain ⟨hnone, rfl⟩ := lastArgument_eq_error.1 hname
      exact .missingInput hknown hsplit (fun n hn => (hgiven n).1 (hbefore n hn)) (argument?_eq_none.1 hnone)
    · obtain ⟨before, ⟨name, x⟩, after, rfl, hbefore, hp⟩ := exists_first_not hknown
      rw [arrange_of_unknown hbefore hp] at h
      cases h
      exact .unknownInput rfl hbefore hp
  · rintro (⟨rfl, hbefore, hname⟩ | ⟨hknown, hsplit, hbefore, hname⟩)
    · exact arrange_of_unknown hbefore hname
    · rw [arrange_of_known hknown, Except.mapM_eq_error]
      exact ⟨_, _, _, hsplit, fun n hn => (hgiven n).2 (hbefore n hn),
        lastArgument_eq_error.2 ⟨argument?_eq_none.2 hname, rfl⟩⟩

/-! ## Shapes -/

/-- The error that arguments in the order of the inputs are refused with. -/
inductive ShapeFault (f : Func α) (xs : List (Argument α)) : Error → Prop where
  | input {before after : List ((String × Expr α) × Argument α)} {name : String} {e : Expr α}
    {x : Argument α} :
    f.inputs.zip xs = before ++ ((name, e), x) :: after → (∀ q ∈ before, q.2.shape = q.1.2.shape) →
    x.shape ≠ e.shape → ShapeFault f xs (.shapeMismatch (.input e.shape name) x.shape)

theorem Arranges.length_eq {xs : List (Argument α)} (h : f.Arranges args xs) :
    xs.length = f.inputs.length := by
  rw [← h.last.length_eq, inputNames, List.length_map]

theorem checkArguments_eq_error {xs : List (Argument α)} (hlength : xs.length = f.inputs.length)
    {err : Error} : f.checkArguments xs = .error err ↔ f.ShapeFault xs err := by
  have hshapes : f.checkArguments xs = checkShapes f.inputs xs := by
    unfold checkArguments
    rw [if_neg (not_not.2 hlength)]
  rw [hshapes, checkShapes, Except.forM_eq_error]
  constructor
  · rintro ⟨before, ⟨⟨name, e⟩, x⟩, after, hsplit, hbefore, hx⟩
    obtain ⟨hne, rfl⟩ := Shape.require_eq_error.1 hx
    refine .input hsplit (fun q hq => ?_) (beq_eq_false_iff_ne.1 hne)
    exact beq_iff_eq.1 (Shape.require_eq_ok.1 (hbefore q hq))
  · rintro ⟨hsplit, hbefore, hne⟩
    exact ⟨_, _, _, hsplit, fun q hq => Shape.require_eq_ok.2 (beq_iff_eq.2 (hbefore q hq)),
      Shape.require_eq_error.2 ⟨beq_false_of_ne hne, rfl⟩⟩

/-! ## Outcomes -/

variable [Scalar α]

/-- What a call can end in: the error that its names are refused with, the error that its shapes are refused
with, and otherwise what the tape ends in, where each value goes under the name of its output. -/
inductive CallEnds (f : Func α) (args : List (String × Argument α)) :
    Except Error (List (String × Dense α)) → Prop where
  | names {err : Error} : f.NameFault args err → CallEnds f args (.error err)
  | shapes {xs : List (Argument α)} {err : Error} : f.Arranges args xs → f.ShapeFault xs err →
    CallEnds f args (.error err)
  | tape {xs : List (Argument α)} : f.Arranges args xs → xs.map (·.shape) = f.inputShapes →
    CallEnds f args ((f.outputNames.zip ·) <$> f.tape.eval (xs.map (·.toDense)))

theorem call_of_arranges {xs : List (Argument α)} (h : f.Arranges args xs) :
    f.call args = (f.outputNames.zip ·) <$> f.eval xs := by
  unfold call
  rw [arrange_eq_ok_iff.2 h]
  rfl

theorem eval_of_shapeFault {xs : List (Argument α)} {err : Error} (hlength : xs.length = f.inputs.length)
    (h : f.ShapeFault xs err) : f.eval xs = .error err := by
  unfold eval
  rw [(checkArguments_eq_error hlength).2 h]
  rfl

theorem eval_of_shapes {xs : List (Argument α)} (h : xs.map (·.shape) = f.inputShapes) :
    f.eval xs = f.tape.eval (xs.map (·.toDense)) := by
  unfold eval
  rw [checkArguments_eq_ok.2 h]
  rfl

/-- The outcome of a call is the only one it can have. -/
theorem call_eq_iff {r : Except Error (List (String × Dense α))} : f.call args = r ↔ f.CallEnds args r := by
  constructor
  · rintro rfl
    rcases harrange : f.arrange args with err | xs
    · have hcall : f.call args = .error err := by
        unfold call
        rw [harrange]
        rfl
      exact hcall ▸ .names (arrange_eq_error.1 harrange)
    · have harranges := arrange_eq_ok_iff.1 harrange
      rw [call_of_arranges harranges]
      rcases hcheck : f.checkArguments xs with err | _
      · have hfault := (checkArguments_eq_error harranges.length_eq).1 hcheck
        rw [eval_of_shapeFault harranges.length_eq hfault]
        exact .shapes harranges hfault
      · have hshapes := checkArguments_eq_ok.1 hcheck
        rw [eval_of_shapes hshapes]
        exact .tape harranges hshapes
  · rintro (hfault | ⟨harranges, hfault⟩ | ⟨harranges, hshapes⟩)
    · unfold call
      rw [arrange_eq_error.2 hfault]
      rfl
    · rw [call_of_arranges harranges, eval_of_shapeFault harranges.length_eq hfault]
      rfl
    · rw [call_of_arranges harranges, eval_of_shapes hshapes]

/-! ## Values by name -/

omit [Scalar α] in
theorem length_outputs_compile {inputs outputs : List (Expr α)} {t : Tape α}
    (h : Tape.compile inputs outputs = .ok t) : t.outputs.length = outputs.length := by
  obtain ⟨_, -, h⟩ := Except.bind_eq_ok.1 h
  cases h
  exact List.length_map _

theorem length_values {xs : List (Argument α)} {values : List (Dense α)} (h : f.eval xs = .ok values) :
    values.length = f.outputs.length := by
  obtain ⟨_, -, h⟩ := Except.bind_eq_ok.1 h
  obtain ⟨_, -, h⟩ := Except.bind_eq_ok.1 h
  cases h
  rw [List.length_map, length_outputs_compile f.tape_eq, List.length_map]

omit [Scalar α] in
/-- Collected by name, the results are as many as the outputs, and each name has the value in the place of
its output. -/
theorem collected_results {values : List (Dense α)} (hlength : values.length = f.outputs.length) :
    (Std.HashMap.ofList (f.outputNames.zip values)).size = f.outputs.length ∧
    ∀ (k : Nat) (name : String), f.outputNames[k]? = some name →
      (Std.HashMap.ofList (f.outputNames.zip values))[name]? = values[k]? := by
  have houtputs : f.outputNames.length = f.outputs.length := List.length_map _
  have hnames : (f.outputNames.zip values).map (·.1) = f.outputNames :=
    List.map_fst_zip (by rw [houtputs, hlength])
  have hdistinct : (f.outputNames.zip values).Pairwise fun a b => (a.1 == b.1) = false := by
    have hnodup : ((f.outputNames.zip values).map (·.1)).Nodup := by
      rw [hnames]
      exact f.named.outputNames
    exact (List.pairwise_map.1 hnodup).imp beq_false_of_ne
  refine ⟨?_, fun k name hname => ?_⟩
  · rw [Std.HashMap.size_ofList hdistinct, List.length_zip, houtputs, hlength, Nat.min_self]
  · obtain ⟨hk, -⟩ := List.getElem?_eq_some_iff.1 hname
    have hvalue : values[k]? = some values[k] := List.getElem?_eq_getElem (by omega)
    rw [hvalue]
    exact Std.HashMap.getElem?_ofList_of_mem BEq.rfl hdistinct
      (List.mem_of_getElem? (List.getElem?_zip_eq_some.2 ⟨hname, hvalue⟩))

/-! ## Other orders -/

omit [Scalar α] in
/-- Where names are given once, only which argument is given under which name matters. -/
theorem arrange_perm {args' : List (String × Argument α)} (hperm : args'.Perm args)
    (hnames : (args.map (·.1)).Nodup) (hknown : ∀ p ∈ args, p.1 ∈ f.inputNames) :
    f.arrange args' = f.arrange args := by
  have hnames' : (args'.map (·.1)).Nodup := (hperm.map _).nodup_iff.2 hnames
  have hargument (name : String) : argument? args' name = argument? args name := by
    rcases hargs : argument? args name with _ | x
    · rw [argument?_eq_none] at hargs ⊢
      exact fun hmem => hargs ((hperm.map _).mem_iff.1 hmem)
    · obtain ⟨before, after, hsplit, -⟩ := argument?_eq_some_iff.1 hargs
      exact argument?_eq_some (p := (name, x)) hnames' (hperm.mem_iff.2 (by simp [hsplit]))
  rw [arrange_of_known hknown, arrange_of_known fun p hp => hknown p (hperm.mem_iff.1 hp)]
  exact Except.mapM_congr fun name _ => by rw [lastArgument, lastArgument, hargument]

/-- A call has one outcome, which the names and shapes of the arguments and the tape decide. Arguments that
have names of inputs, one for each of them at least, are evaluated in the order of the inputs, the last ones
given under each name. Every output is among the results, under its name with its own value. Arguments of
different names may be given in any order. -/
theorem call_spec (f : Func α) (args : List (String × Argument α)) :
    (∀ r, f.call args = r ↔ f.CallEnds args r) ∧
    (∀ xs, f.Arranges args xs → f.call args = (f.outputNames.zip ·) <$> f.eval xs) ∧
    (∀ results, f.call args = .ok results → ∃ xs values, f.Arranges args xs ∧ f.eval xs = .ok values ∧
      values.length = f.outputs.length ∧ (Std.HashMap.ofList results).size = f.outputs.length ∧
      ∀ (k : Nat) (name : String), f.outputNames[k]? = some name →
        (Std.HashMap.ofList results)[name]? = values[k]?) ∧
    (∀ args' : List (String × Argument α), args'.Perm args → (args.map (·.1)).Nodup →
      (∀ p ∈ args, p.1 ∈ f.inputNames) → f.call args' = f.call args) := by
  refine ⟨fun r => call_eq_iff, fun xs => call_of_arranges, fun results hresults => ?_,
    fun args' hperm hnames hknown => ?_⟩
  · obtain ⟨xs, hxs, hresults⟩ := Except.bind_eq_ok.1 hresults
    obtain ⟨values, hvalues, hresults⟩ := Except.bind_eq_ok.1 hresults
    cases hresults
    exact ⟨xs, values, arrange_eq_ok_iff.1 hxs, hvalues, length_values hvalues,
      collected_results (length_values hvalues)⟩
  · unfold call
    rw [arrange_perm hperm hnames hknown]

/-- A function of two numbers. -/
theorem exists_make_doubleIf :
    ∃ f, make "f" (["a", "c"].zip doubleIf) [("y", doubleIf[3])] = .ok f := by
  have hS : IsGraph {x | x ∈ doubleIf} :=
    isGraph_list (by simp [doubleIf, Expr.operands]) (by simp [doubleIf, Expr.id])
  have hnamed : Named (["a", "c"].zip doubleIf) [("y", doubleIf[3])] :=
    ⟨by decide, by decide, by decide, by decide⟩
  exact exists_make_of_list hS "f" hnamed (by simp [doubleIf]) (by decide)

theorem call_doubleIf : ∃ f : Func ℚ, f.inputNames = ["a", "c"] ∧
    f.call [("b", .scalar 1), ("a", .dense (.zero (.square 2)))] = .error (.unknownInput "b") ∧
    f.call [("c", .scalar 0), ("c", .scalar 1)] = .error (.missingInput "a") ∧
    f.call [("c", .scalar 1), ("a", .dense (.zero (.square 2)))] =
      .error (.shapeMismatch (.input .scalar "a") (.square 2)) ∧
    f.call [("c", .scalar 0), ("a", .scalar 2), ("c", .scalar 1)] =
      (["y"].zip ·) <$> f.eval [.scalar 2, .scalar 1] ∧
    f.call [("c", .scalar 1), ("a", .scalar 2)] = f.call [("a", .scalar 2), ("c", .scalar 1)] := by
  obtain ⟨f, hf⟩ := exists_make_doubleIf
  obtain ⟨-, hi, ho⟩ := make_eq_ok hf
  have hnames : f.inputNames = ["a", "c"] := by
    rw [inputNames, hi]
    rfl
  have houtputs : f.outputNames = ["y"] := by
    rw [outputNames, ho]
    rfl
  have hmatrix : f.Arranges [("c", .scalar 1), ("a", .dense (.zero (.square 2)))]
      [.dense (.zero (.square 2)), .scalar 1] := by
    refine ⟨by simp [hnames], ?_⟩
    rw [hnames]
    exact .cons ⟨[_], [], rfl, by simp⟩ (.cons ⟨[], [_], rfl, by simp⟩ .nil)
  have hlast : f.Arranges [("c", .scalar 0), ("a", .scalar 2), ("c", .scalar 1)] [.scalar 2, .scalar 1] := by
    refine ⟨by simp [hnames], ?_⟩
    rw [hnames]
    exact .cons ⟨[_], [_], rfl, by simp⟩ (.cons ⟨[_, _], [], rfl, by simp⟩ .nil)
  have hzip : f.inputs.zip ([.dense (.zero (.square 2)), .scalar 1] : List (Argument ℚ)) =
      [] ++ (("a", doubleIf[0]), .dense (.zero (.square 2))) :: [(("c", doubleIf[1]), .scalar 1)] := by
    rw [hi]
    rfl
  have hfault := ShapeFault.input hzip (by simp) (by decide)
  refine ⟨f, hnames, ((f.call_spec _).1 _).2 (.names ?_), ((f.call_spec _).1 _).2 (.names ?_),
    ((f.call_spec _).1 _).2 (.shapes hmatrix hfault),
    houtputs ▸ (f.call_spec _).2.1 _ hlast, (f.call_spec _).2.2.2 _ (.swap _ _ _) (by simp) (by simp [hnames])⟩
  · exact .unknownInput (List.nil_append _).symm (by simp) (by simp [hnames])
  · exact .missingInput (by simp [hnames]) (hnames.trans (List.nil_append _).symm) (by simp) (by simp)

end Func

end Lyapunov
