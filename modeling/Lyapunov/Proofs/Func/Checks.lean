/-
The checks that make a function: which lists of inputs and outputs pass, and what a function that
exists says about its inputs and outputs.
-/
import Mathlib.Data.List.Nodup
import Lyapunov.Func.Basic
import Lyapunov.Proofs.Except

namespace Lyapunov

variable {α : Type}

namespace Func

/-! ## Inputs -/

theorem checkInputs_eq_ok {function : String} {names : List String} {ids : List Nat}
    {inputs : List (String × Expr α)} :
    checkInputs function names ids inputs = .ok () ↔
      (∀ p ∈ inputs, p.2.isSymbol = true) ∧
      ((inputs.map (·.1)).Nodup ∧ ∀ p ∈ inputs, p.1 ∉ names) ∧
      (inputs.map (·.2.id)).Nodup ∧ ∀ p ∈ inputs, p.2.id ∉ ids := by
  -- by induction on the inputs; the names and numbers seen so far grow
  induction inputs generalizing names ids with
  | nil => simp [checkInputs, pure, Except.pure]
  | cons p rest ih =>
    obtain ⟨name, e⟩ := p
    unfold checkInputs
    by_cases hs : e.isSymbol = true
    · by_cases hn : name ∈ names
      · simp [hs, hn]
      · by_cases hi : e.id ∈ ids
        · simp [hs, hn, hi]
        · simp only [hs, Bool.not_true, Bool.false_eq_true, if_false, List.contains_iff_mem, hn, hi,
            ih, forall_eq_or_imp, List.map_cons, List.nodup_cons, List.mem_cons, not_or,
            List.mem_map, not_exists, not_and, true_and, not_false_eq_true]
          constructor
          · rintro ⟨h1, ⟨h2, h3⟩, h4, h5⟩
            exact ⟨h1, ⟨⟨fun q hq => (h3 q hq).1, h2⟩, fun q hq => (h3 q hq).2⟩,
              ⟨fun q hq => (h5 q hq).1, h4⟩, fun q hq => (h5 q hq).2⟩
          · rintro ⟨h1, ⟨⟨h2, h3⟩, h4⟩, ⟨h5, h6⟩, h7⟩
            exact ⟨h1, ⟨h3, fun q hq => ⟨h2 q hq, h4 q hq⟩⟩, h6, fun q hq => ⟨h5 q hq, h7 q hq⟩⟩
    · simp [hs]

/-- Different symbols fail the check on inputs only by a name that is given twice. -/
theorem checkInputs_eq_error {function : String} {names : List String} {ids : List Nat}
    {inputs : List (String × Expr α)} {err : Error} (hsymbols : ∀ p ∈ inputs, p.2.isSymbol = true)
    (hids : (inputs.map (·.2.id)).Nodup) (hnew : ∀ p ∈ inputs, p.2.id ∉ ids)
    (h : checkInputs function names ids inputs = .error err) :
    ∃ name, err = .invalidFunction function (.repeatedInput name) := by
  induction inputs generalizing names ids with
  | nil => cases h
  | cons p rest ih =>
    obtain ⟨name, e⟩ := p
    rw [List.map_cons, List.nodup_cons] at hids
    rw [List.forall_mem_cons] at hsymbols hnew
    have hid : ids.contains e.id = false := by simpa using hnew.1
    simp only [checkInputs, hsymbols.1, hid, Bool.not_true, Bool.false_eq_true, if_false] at h
    split at h
    · cases h
      exact ⟨name, rfl⟩
    · refine ih hsymbols.2 hids.2 (fun q hq hmem => ?_) h
      rcases List.mem_cons.1 hmem with heq | hmem
      · exact hids.1 (List.mem_map.2 ⟨q, hq, heq⟩)
      · exact hnew.2 q hq hmem

/-! ## Outputs -/

theorem checkOutputs_eq_error {function : String} {names : List String}
    {outputs : List (String × Expr α)} {err : Error}
    (h : checkOutputs function names outputs = .error err) :
    ∃ name, err = .invalidFunction function (.repeatedOutput name) := by
  induction outputs generalizing names with
  | nil => cases h
  | cons p rest ih =>
    obtain ⟨name, e⟩ := p
    unfold checkOutputs at h
    split at h
    · cases h
      exact ⟨name, rfl⟩
    · exact ih h

theorem checkOutputs_eq_ok {function : String} {names : List String}
    {outputs : List (String × Expr α)} :
    checkOutputs function names outputs = .ok () ↔
      (outputs.map (·.1)).Nodup ∧ ∀ p ∈ outputs, p.1 ∉ names := by
  induction outputs generalizing names with
  | nil => simp [checkOutputs, pure, Except.pure]
  | cons p rest ih =>
    obtain ⟨name, e⟩ := p
    unfold checkOutputs
    by_cases hn : name ∈ names
    · simp [hn]
    · simp only [List.contains_iff_mem, hn, if_false, ih, forall_eq_or_imp, List.map_cons,
        List.nodup_cons, List.mem_cons, not_or, List.mem_map, not_exists, not_and,
        not_false_eq_true, true_and]
      constructor
      · rintro ⟨h1, h2⟩
        exact ⟨⟨fun q hq => (h2 q hq).1, h1⟩, fun q hq => (h2 q hq).2⟩
      · rintro ⟨⟨h1, h2⟩, h3⟩
        exact ⟨h2, fun q hq => ⟨h1 q hq, h3 q hq⟩⟩

/-! ## Functions -/

/-- Inputs and outputs that pass the checks on names and symbols. -/
structure Named (inputs outputs : List (String × Expr α)) : Prop where
  symbols : ∀ p ∈ inputs, p.2.isSymbol = true
  inputNames : (inputs.map (·.1)).Nodup
  inputIds : (inputs.map (·.2.id)).Nodup
  outputNames : (outputs.map (·.1)).Nodup

/-- After the checks on names and symbols only the tape can be refused. -/
theorem compile_of_named {name : String} {inputs outputs : List (String × Expr α)}
    (h : Named inputs outputs) :
    compile name inputs outputs = Tape.compile (inputs.map (·.2)) (outputs.map (·.2)) := by
  unfold compile
  rw [checkInputs_eq_ok.2 ⟨h.symbols, ⟨h.inputNames, by simp⟩, h.inputIds, by simp⟩,
    checkOutputs_eq_ok.2 ⟨h.outputNames, by simp⟩]
  rfl

/-- A function exists when its names and symbols pass the checks and its outputs have a tape. -/
theorem compile_eq_ok {name : String} {inputs outputs : List (String × Expr α)} {tape : Tape α} :
    compile name inputs outputs = .ok tape ↔ Named inputs outputs ∧
      Tape.compile (inputs.map (·.2)) (outputs.map (·.2)) = .ok tape := by
  constructor
  · intro h
    obtain ⟨⟨⟩, hi, hrest⟩ := Except.bind_eq_ok.1 h
    obtain ⟨⟨⟩, ho, htape⟩ := Except.bind_eq_ok.1 hrest
    obtain ⟨h1, ⟨h2, -⟩, h3, -⟩ := checkInputs_eq_ok.1 hi
    exact ⟨⟨h1, h2, h3, (checkOutputs_eq_ok.1 ho).1⟩, htape⟩
  · rintro ⟨hnamed, h⟩
    exact (compile_of_named hnamed).trans h

theorem named (f : Func α) : Named f.inputs f.outputs := (compile_eq_ok.1 f.compiled).1

theorem tape_eq (f : Func α) :
    Tape.compile (f.inputs.map (·.2)) (f.outputs.map (·.2)) = .ok f.tape :=
  (compile_eq_ok.1 f.compiled).2

theorem make_eq_ok {name : String} {inputs outputs : List (String × Expr α)} {f : Func α} :
    make name inputs outputs = .ok f → f.name = name ∧ f.inputs = inputs ∧ f.outputs = outputs := by
  unfold make
  split
  · intro h; cases h; exact ⟨rfl, rfl, rfl⟩
  · intro h; cases h

theorem exists_make {name : String} {inputs outputs : List (String × Expr α)} :
    (∃ f, make name inputs outputs = .ok f) ↔ ∃ tape, compile name inputs outputs = .ok tape := by
  unfold make
  split
  · rename_i tape h
    exact ⟨fun _ => ⟨tape, h⟩, fun _ => ⟨_, rfl⟩⟩
  · rename_i e h
    constructor
    · rintro ⟨f, h⟩; cases h
    · rintro ⟨t, h'⟩; rw [h] at h'; cases h'

theorem make_eq_error {name : String} {inputs outputs : List (String × Expr α)} {err : Error} :
    make name inputs outputs = .error err ↔ compile name inputs outputs = .error err := by
  unfold make
  split
  · rename_i tape htape
    constructor
    · intro h; cases h
    · intro h; rw [htape] at h; cases h
  · rename_i e herror
    constructor
    · intro h; cases h; exact herror
    · intro h; rw [herror] at h; cases h; rfl

/-- A name was given to two inputs or to two outputs. -/
inductive NameClash (function : String) : Error → Prop where
  | input (name : String) : NameClash function (.invalidFunction function (.repeatedInput name))
  | output (name : String) : NameClash function (.invalidFunction function (.repeatedOutput name))

/-- Different symbols and outputs that have a tape fail to make a function only by a name clash. -/
theorem nameClash_of_make_eq_error {name : String} {inputs outputs : List (String × Expr α)}
    {err : Error} (hsymbols : ∀ p ∈ inputs, p.2.isSymbol = true)
    (hids : (inputs.map (·.2.id)).Nodup)
    (htape : ∃ tape, Tape.compile (inputs.map (·.2)) (outputs.map (·.2)) = .ok tape)
    (h : make name inputs outputs = .error err) : NameClash name err := by
  obtain ⟨tape, htape⟩ := htape
  rcases Except.bind_eq_error.1 (make_eq_error.1 h) with hinputs | ⟨_, -, h⟩
  · obtain ⟨x, rfl⟩ := checkInputs_eq_error hsymbols hids (by simp) hinputs
    exact .input x
  rcases Except.bind_eq_error.1 h with houtputs | ⟨_, -, h⟩
  · obtain ⟨x, rfl⟩ := checkOutputs_eq_error houtputs
    exact .output x
  · rw [htape] at h
    cases h

/-! ## Arguments -/

theorem checkShapes_eq_ok {inputs : List (String × Expr α)} {args : List (Argument α)}
    (h : args.length = inputs.length) :
    checkShapes inputs args = .ok () ↔ args.map (·.shape) = inputs.map (·.2.shape) := by
  unfold checkShapes
  induction inputs generalizing args with
  | nil => simp_all [pure, Except.pure]
  | cons p inputs ih =>
    obtain _ | ⟨a, args⟩ := args
    · simp at h
    · simp only [List.length_cons, Nat.add_right_cancel_iff] at h
      simp only [List.zip_cons_cons, List.map_cons, List.cons.injEq, ← ih h]
      unfold Shape.require
      by_cases hs : a.shape = p.2.shape
      · simp [hs]
      · simp [hs, throw, throwThe, MonadExceptOf.throw, bind, Except.bind]

/-- The arguments that a function accepts are those of the shapes of its inputs. -/
theorem checkArguments_eq_ok {f : Func α} {args : List (Argument α)} :
    f.checkArguments args = .ok () ↔ args.map (·.shape) = f.inputShapes := by
  unfold checkArguments inputShapes
  by_cases h : args.length = f.inputs.length
  · simp [h, checkShapes_eq_ok]
  · have : args.map (·.shape) ≠ f.inputs.map (·.2.shape) := fun he =>
      h (by simpa using congrArg List.length he)
    simp [h, this, throw, throwThe, MonadExceptOf.throw, bind, Except.bind]

theorem checkArguments_of_length_ne {f : Func α} {args : List (Argument α)}
    (h : args.length ≠ f.inputs.length) :
    f.checkArguments args = .error (.argumentCount f.name f.inputs.length args.length) := by
  unfold checkArguments
  rw [if_pos h]
  rfl

/-- Only the names and shapes of the inputs matter for the check on arguments. -/
theorem checkShapes_congr {inputs inputs' : List (String × Expr α)}
    (h : List.Forall₂ (fun p q => p.1 = q.1 ∧ p.2.shape = q.2.shape) inputs inputs')
    (args : List (Argument α)) : checkShapes inputs args = checkShapes inputs' args := by
  unfold checkShapes
  induction h generalizing args with
  | nil => rfl
  | cons hpq _ ih =>
    cases args with
    | nil => rfl
    | cons arg args =>
      simp only [List.forM_eq_forM] at ih ⊢
      rw [List.zip_cons_cons, List.zip_cons_cons, List.forM_cons, List.forM_cons, ih, hpq.1, hpq.2]

theorem checkArguments_congr {f f' : Func α} (hname : f.name = f'.name)
    (hinputs : List.Forall₂ (fun p q => p.1 = q.1 ∧ p.2.shape = q.2.shape) f.inputs f'.inputs)
    (args : List (Argument α)) : f.checkArguments args = f'.checkArguments args := by
  unfold checkArguments
  rw [hname, hinputs.length_eq, checkShapes_congr hinputs]

/-- Only the shapes of the arguments matter for the check on them. -/
theorem checkArguments_of_shapes_eq {f : Func α} {args args' : List (Argument α)}
    (h : args.map (·.shape) = args'.map (·.shape)) : f.checkArguments args = f.checkArguments args' := by
  have hlength : args.length = args'.length := by simpa using congrArg List.length h
  have hshapes (inputs : List (String × Expr α)) : checkShapes inputs args = checkShapes inputs args' := by
    unfold checkShapes
    induction inputs generalizing args args' with
    | nil => rfl
    | cons p inputs ih =>
      cases args with
      | nil =>
        obtain rfl := List.map_eq_nil_iff.1 h.symm
        rfl
      | cons x args =>
        obtain ⟨x', args', rfl, hx, hargs⟩ := List.map_eq_cons_iff.1 h.symm
        have ih := ih hargs.symm (Nat.succ.inj hlength)
        simp only [List.forM_eq_forM] at ih ⊢
        rw [List.zip_cons_cons, List.zip_cons_cons, List.forM_cons, List.forM_cons, ih, hx]
  unfold checkArguments
  rw [hlength, hshapes]

/-- Arguments that are refused are refused with an error that depends on their shapes only. -/
theorem eval_of_shapes_eq [Scalar α] {f : Func α} {args args' : List (Argument α)}
    (h : args.map (·.shape) = args'.map (·.shape)) (hargs : args.map (·.shape) ≠ f.inputShapes) :
    f.eval args = f.eval args' := by
  unfold eval
  rw [checkArguments_of_shapes_eq h]
  cases hcheck : f.checkArguments args' with
  | error err => rfl
  | ok => exact absurd (h.trans (checkArguments_eq_ok.1 hcheck)) hargs

/-! ## Named arguments -/

/-- The last argument given under a name. -/
def argument? (args : List (String × Argument α)) (name : String) : Option (Argument α) :=
  (args.reverse.find? (·.1 == name)).map (·.2)

theorem argument?_cons (p : String × Argument α) (args : List (String × Argument α)) (name : String) :
    argument? (p :: args) name = (argument? args name).or (if p.1 = name then some p.2 else none) := by
  rw [argument?, argument?, List.reverse_cons, List.find?_append, Option.map_or, List.find?_singleton]
  by_cases h : p.1 = name <;> simp [h]

theorem argument?_eq_none {args : List (String × Argument α)} {name : String} :
    argument? args name = none ↔ name ∉ args.map (·.1) := by
  rw [argument?, Option.map_eq_none_iff, List.find?_eq_none]
  simp only [List.mem_reverse, beq_iff_eq, List.mem_map, not_exists, not_and]

/-- An argument is found under its name when no other has that name. -/
theorem argument?_eq_some {args : List (String × Argument α)} (hnames : (args.map (·.1)).Nodup)
    {p : String × Argument α} (hp : p ∈ args) : argument? args p.1 = some p.2 := by
  unfold argument?
  rcases hfind : args.reverse.find? (·.1 == p.1) with _ | q
  · rw [List.find?_eq_none] at hfind
    exact absurd BEq.rfl (hfind p (List.mem_reverse.2 hp))
  · have hq := List.mem_reverse.1 (List.mem_of_find?_eq_some hfind)
    have hname := List.find?_some hfind
    rw [beq_iff_eq] at hname
    rw [hfind, List.inj_on_of_nodup_map hnames hq hp hname, Option.map_some]

/-- The last argument given under a name; without one the name is refused. -/
def lastArgument (args : List (String × Argument α)) (name : String) : Except Error (Argument α) :=
  match argument? args name with
  | some arg => .ok arg
  | none => .error (.missingInput name)

theorem lastArgument_eq_ok {args : List (String × Argument α)} {name : String} {arg : Argument α} :
    lastArgument args name = .ok arg ↔ argument? args name = some arg := by
  unfold lastArgument
  cases argument? args name <;> simp

theorem lastArgument_eq_error {args : List (String × Argument α)} {name : String} {err : Error} :
    lastArgument args name = .error err ↔ argument? args name = none ∧ err = .missingInput name := by
  unfold lastArgument
  cases argument? args name <;> simp [eq_comm]

variable {f : Func α}

theorem inputIndex?_eq_none {name : String} : f.inputIndex? name = none ↔ name ∉ f.inputNames := by
  rw [inputIndex?, List.findIdx?_eq_none_iff]
  exact ⟨fun h hname => by simpa using h name hname, fun h x hx => beq_false_of_ne fun heq => h (heq ▸ hx)⟩

/-- An argument whose name is an input takes the place of what was held for that input. -/
theorem place_eq_ok {p : String × Argument α} (hp : p.1 ∈ f.inputNames) (held : String → Option (Argument α)) :
    f.place (f.inputNames.map held) p =
      .ok (f.inputNames.map fun name => if p.1 = name then some p.2 else held name) := by
  unfold place
  rcases hindex : f.inputIndex? p.1 with _ | i
  · exact absurd hp (inputIndex?_eq_none.1 hindex)
  · obtain ⟨hi, hname, -⟩ := List.findIdx?_eq_some_iff_getElem.1 hindex
    rw [beq_iff_eq] at hname
    refine congrArg Except.ok (List.ext_getElem (by simp) fun j hj hj' => ?_)
    rw [List.length_map] at hj'
    -- as the names differ, only the place of the input has its name
    have hij : i = j ↔ p.1 = f.inputNames[j] := by
      rw [← hname]
      exact f.named.inputNames.getElem_inj_iff.symm
    rw [List.getElem_set, List.getElem_map, List.getElem_map]
    simp only [hij]

/-- Arguments under names of inputs are put into their places, the last ones given for each input. -/
theorem foldlM_place_eq_ok {args : List (String × Argument α)} (hargs : ∀ p ∈ args, p.1 ∈ f.inputNames)
    (held : String → Option (Argument α)) :
    args.foldlM f.place (f.inputNames.map held) =
      .ok (f.inputNames.map fun name => (argument? args name).or (held name)) := by
  induction args generalizing held with
  | nil => rfl
  | cons p args ih =>
    obtain ⟨hp, hargs⟩ := List.forall_mem_cons.1 hargs
    rw [List.foldlM_cons, place_eq_ok hp]
    refine (ih hargs _).trans (congrArg Except.ok (List.map_congr_left fun name _ => ?_))
    rw [argument?_cons, Option.or_assoc]
    by_cases h : p.1 = name <;> simp [h]

/-- Arguments under names of inputs are taken up by the inputs, the last ones given for each; an input
without an argument is refused. -/
theorem arrange_of_known {args : List (String × Argument α)} (hargs : ∀ p ∈ args, p.1 ∈ f.inputNames) :
    f.arrange args = f.inputNames.mapM (lastArgument args) := by
  unfold arrange
  rw [foldlM_place_eq_ok hargs]
  refine Except.mapM_congr_of_forall₂ ?_
  rw [← List.map_prod_right_eq_zip, List.forall₂_map_left_iff]
  refine List.forall₂_same.2 fun name _ => ?_
  rw [Option.or_none, lastArgument]
  cases argument? args name <;> rfl

/-- A name that is no input is refused, after names that are. -/
theorem arrange_of_unknown {before after : List (String × Argument α)} {p : String × Argument α}
    (hbefore : ∀ q ∈ before, q.1 ∈ f.inputNames) (hp : p.1 ∉ f.inputNames) :
    f.arrange (before ++ p :: after) = .error (.unknownInput p.1) := by
  have hplace (places : List (Option (Argument α))) : f.place places p = .error (.unknownInput p.1) := by
    rw [place, inputIndex?_eq_none.2 hp]
    rfl
  have hfold : (before ++ p :: after).foldlM f.place (f.inputNames.map fun _ => none) =
      .error (.unknownInput p.1) := by
    rw [List.foldlM_append, foldlM_place_eq_ok hbefore]
    exact Except.bind_eq_error.2 (.inr ⟨_, rfl, Except.bind_eq_error.2 (.inl (hplace _))⟩)
  unfold arrange
  rw [hfold]
  rfl

/-- Only the names of the inputs matter for the places of arguments. -/
theorem arrange_congr {f' : Func α} (h : f.inputNames = f'.inputNames) (args : List (String × Argument α)) :
    f.arrange args = f'.arrange args := by
  have hplace : f.place = f'.place := by
    funext places p
    rw [place, place, inputIndex?, inputIndex?, h]
  unfold arrange
  rw [h, hplace]

/-- Arguments under the names of the inputs, in their order, are in the right places. -/
theorem arrange_eq_ok {args : List (String × Argument α)}
    (h : args.map (·.1) = f.inputNames) : f.arrange args = .ok (args.map (·.2)) := by
  have hnames : (args.map (·.1)).Nodup := h ▸ f.named.inputNames
  rw [arrange_of_known fun p hp => h ▸ List.mem_map_of_mem hp, ← h]
  refine Except.mapM_eq_ok.2 (List.forall₂_map_left_iff.2 (List.forall₂_map_right_iff.2 ?_))
  exact List.forall₂_same.2 fun p hp => lastArgument_eq_ok.2 (argument?_eq_some hnames hp)

theorem call_eq [Scalar α] {args : List (String × Argument α)}
    (h : args.map (·.1) = f.inputNames) :
    f.call args = (f.outputNames.zip ·) <$> f.eval (args.map (·.2)) := by
  unfold call
  rw [arrange_eq_ok h]
  rfl

end Func

end Lyapunov
