/-
Resolved options. A dictionary resolves when the first declaration of each of its names admits the value that
it has; otherwise the least name whose value is not admitted is to blame. A resolved dictionary gives the values
of the original one, and for the other names that are declared their defaults.
-/
import Lyapunov.Options.Schema
import Lyapunov.Proofs.Except

namespace Lyapunov

/-! ## Kinds -/

theorem OptionKind.accepts_bool {value : OptionValue} :
    OptionKind.bool.accepts value = true ↔ ∃ b, value = .bool b := by
  cases value <;> simp [accepts, OptionValue.kind]

theorem OptionKind.accepts_int {value : OptionValue} :
    OptionKind.int.accepts value = true ↔ ∃ i, value = .int i := by
  cases value <;> simp [accepts, OptionValue.kind]

namespace Options

/-! ## Defaults -/

theorem get?_setDefault (o : Options) (spec : OptionSpec) (key : String) :
    (o.setDefault spec).get? key =
      (o.get? key).or (if spec.name = key then some spec.default else none) := by
  unfold setDefault contains
  by_cases hkey : spec.name = key
  · subst hkey
    rw [if_pos rfl]
    cases hvalue : o.get? spec.name with
    | none => exact (get?_set o _ _ _).trans (if_pos rfl)
    | some value => exact hvalue
  · rw [if_neg hkey, Option.or_none]
    split
    · rfl
    · rw [get?_set, if_neg hkey]

/-- The first declaration of a name gives its default. -/
theorem get?_foldl_setDefault (specs : List OptionSpec) (o : Options) (key : String) :
    (specs.foldl setDefault o).get? key =
      (o.get? key).or ((specs.find? (·.name == key)).map (·.default)) := by
  induction specs generalizing o with
  | nil => simp
  | cons spec specs ih =>
    rw [List.foldl_cons, ih, get?_setDefault, Option.or_assoc, List.find?_cons]
    by_cases hkey : spec.name = key
    · rw [if_pos hkey, beq_iff_eq.2 hkey, Option.some_or, Option.map_some]
    · rw [if_neg hkey, beq_false_of_ne hkey, Option.none_or]

/-! ## Dictionaries as values -/

theorem insertEntry_of_lt {key : String} {value : OptionValue} {entries : List (String × OptionValue)}
    (h : ∀ x ∈ entries, x.1 < key) : insertEntry key value entries = entries ++ [(key, value)] := by
  induction entries with
  | nil => rfl
  | cons entry rest ih =>
    obtain ⟨hentry, hrest⟩ := List.forall_mem_cons.1 h
    rw [insertEntry, if_neg (String.lt_asymm hentry), if_neg fun heq => String.lt_irrefl _ (heq ▸ hentry), ih hrest]
    rfl

/-- The entries of a dictionary make the dictionary. -/
theorem ofList_entries (o : Options) : ofList o.entries = o := by
  have hentries (l : List (String × OptionValue)) (acc : Options) (h : KeysIncrease (acc.entries ++ l)) :
      (l.foldl (fun o entry => o.set entry.1 entry.2) acc).entries = acc.entries ++ l := by
    induction l generalizing acc with
    | nil => rw [List.append_nil]; rfl
    | cons entry l ih =>
      have hset : (acc.set entry.1 entry.2).entries = acc.entries ++ [entry] :=
        insertEntry_of_lt fun x hx => (List.pairwise_append.1 h).2.2 x hx entry List.mem_cons_self
      rw [List.foldl_cons, ih _ (by rwa [hset, List.append_assoc]), hset, List.append_assoc]
      rfl
  have hall := hentries o.entries empty o.increasing
  obtain ⟨entries, hincreasing⟩ := o
  unfold ofList
  generalize entries.foldl _ empty = o' at hall ⊢
  obtain ⟨entries', _⟩ := o'
  cases hall
  rfl

theorem asDict?_toValue (o : Options) : o.toValue.asDict? = some o :=
  congrArg some o.ofList_entries

/-! ## Entries -/

variable {o r : Options} {schemas : List (List OptionSpec)} {key : String} {value : OptionValue}

theorem get?_mem (h : o.get? key = some value) : (key, value) ∈ o.entries := by
  unfold get? at h
  obtain ⟨entry, hfind, rfl⟩ := Option.map_eq_some_iff.1 h
  have hkey := List.find?_some hfind
  rw [beq_iff_eq] at hkey
  exact hkey ▸ List.mem_of_find?_eq_some hfind

theorem get?_eq_some : o.get? key = some value ↔ (key, value) ∈ o.entries := by
  refine ⟨get?_mem, fun h => ?_⟩
  obtain ⟨before, after, hsplit⟩ := List.append_of_mem h
  have hincreasing := hsplit ▸ o.increasing
  have hbefore (x : String × OptionValue) (hx : x ∈ before) : x.1 < key :=
    (List.pairwise_append.1 hincreasing).2.2 x hx _ List.mem_cons_self
  have hfind : o.entries.find? (·.1 == key) = some (key, value) :=
    List.find?_eq_some_iff_append.2 ⟨BEq.rfl, before, after, hsplit, fun x hx => by
      simpa using String.ne_of_lt (hbefore x hx)⟩
  rw [get?, hfind, Option.map_some]

/-- The entries before one of a dictionary are those with smaller names. -/
theorem mem_before_iff {before after : List (String × OptionValue)} {x y : String × OptionValue}
    (h : o.entries = before ++ x :: after) : y ∈ before ↔ y ∈ o.entries ∧ y.1 < x.1 := by
  have hincreasing := List.pairwise_append.1 (h ▸ o.increasing)
  constructor
  · intro hy
    exact ⟨h ▸ List.mem_append_left _ hy, hincreasing.2.2 y hy x List.mem_cons_self⟩
  · rintro ⟨hy, hlt⟩
    rw [h, List.mem_append, List.mem_cons] at hy
    rcases hy with hy | rfl | hy
    · exact hy
    · exact absurd hlt (String.lt_irrefl _)
    · exact absurd hlt (String.lt_asymm ((List.pairwise_cons.1 hincreasing.2.1).1 y hy))

/-! ## Declarations -/

/-- The names that the schemas declare, in order. -/
def declaredNames (schemas : List (List OptionSpec)) : List String := schemas.flatten.map (·.name)

/-- No declaration of the name comes before this one. -/
def FirstDeclared (schemas : List (List OptionSpec)) (spec : OptionSpec) : Prop :=
  ∃ before after, schemas.flatten = before ++ spec :: after ∧ ∀ other ∈ before, other.name ≠ spec.name

/-- The value may be given under the name: it has the kind of the first declaration, or is an integer where
that is a real number. -/
def Admits (schemas : List (List OptionSpec)) (key : String) (value : OptionValue) : Prop :=
  ∃ spec, FirstDeclared schemas spec ∧ spec.name = key ∧
    (value.kind = spec.kind ∨ spec.kind = .real ∧ value.kind = .int)

/-- What is wrong with a value under a name. -/
inductive Offends (schemas : List (List OptionSpec)) (key : String) (value : OptionValue) :
    OptionFault → Prop where
  | unknown : key ∉ declaredNames schemas → Offends schemas key value (.unknown (declaredNames schemas))
  | wrongKind {spec : OptionSpec} : FirstDeclared schemas spec → spec.name = key → value.kind ≠ spec.kind →
    ¬ (spec.kind = .real ∧ value.kind = .int) → Offends schemas key value (.wrongKind spec.kind value.kind)

theorem accepts_iff {kind : OptionKind} :
    kind.accepts value = true ↔ value.kind = kind ∨ kind = .real ∧ value.kind = .int := by
  simp [OptionKind.accepts]

theorem find?_eq_some_iff_firstDeclared {spec : OptionSpec} :
    schemas.flatten.find? (·.name == key) = some spec ↔ FirstDeclared schemas spec ∧ spec.name = key := by
  rw [List.find?_eq_some_iff_append]
  constructor
  · rintro ⟨hname, before, after, hsplit, hbefore⟩
    obtain rfl := beq_iff_eq.1 hname
    exact ⟨⟨before, after, hsplit, fun other hother => by simpa using hbefore other hother⟩, rfl⟩
  · rintro ⟨⟨before, after, hsplit, hbefore⟩, rfl⟩
    exact ⟨BEq.rfl, before, after, hsplit, fun other hother => by simpa using hbefore other hother⟩

theorem find?_eq_none_iff :
    schemas.flatten.find? (·.name == key) = none ↔ key ∉ declaredNames schemas := by
  simp [declaredNames]

theorem checkEntry_eq_ok {specs : List OptionSpec} {entry : String × OptionValue} :
    checkEntry specs entry = .ok () ↔
      ∃ spec, specs.find? (·.name == entry.1) = some spec ∧ spec.kind.accepts entry.2 = true := by
  unfold checkEntry
  cases specs.find? (·.name == entry.1) with
  | none => exact ⟨fun h => (by cases h), fun ⟨_, h, _⟩ => (by cases h)⟩
  | some spec =>
    by_cases haccepts : spec.kind.accepts entry.2 = true
    · simp only [haccepts, if_true]
      exact ⟨fun _ => ⟨spec, rfl, haccepts⟩, fun _ => rfl⟩
    · simp only [haccepts]
      exact ⟨fun h => (by cases h), fun ⟨_, h, k⟩ => absurd (Option.some.inj h ▸ k) haccepts⟩

theorem checkEntry_eq_ok_iff :
    checkEntry schemas.flatten (key, value) = .ok () ↔ Admits schemas key value := by
  rw [checkEntry_eq_ok, Admits]
  refine exists_congr fun spec => ?_
  rw [find?_eq_some_iff_firstDeclared, accepts_iff, and_assoc]

theorem checkEntry_of_offends {fault : OptionFault} (h : Offends schemas key value fault) :
    checkEntry schemas.flatten (key, value) = .error (.invalidOption key fault) := by
  unfold checkEntry
  cases h with
  | unknown h =>
    rw [find?_eq_none_iff.2 h]
    rfl
  | wrongKind hspec hname hkind hreal =>
    rw [find?_eq_some_iff_firstDeclared.2 ⟨hspec, hname⟩]
    exact if_neg fun h => (accepts_iff.1 h).elim hkind hreal

theorem checkEntry_eq_error {err : Error} : checkEntry schemas.flatten (key, value) = .error err ↔
    ∃ fault, Offends schemas key value fault ∧ err = .invalidOption key fault := by
  constructor
  · intro h
    unfold checkEntry at h
    split at h
    · rename_i hfind
      cases h
      exact ⟨_, .unknown (find?_eq_none_iff.1 hfind), rfl⟩
    · rename_i spec hfind
      obtain ⟨hspec, hname⟩ := find?_eq_some_iff_firstDeclared.1 hfind
      split at h
      · cases h
      · rename_i hnot
        rw [accepts_iff, not_or] at hnot
        cases h
        exact ⟨_, .wrongKind hspec hname hnot.1 hnot.2, rfl⟩
  · rintro ⟨fault, h, rfl⟩
    exact checkEntry_of_offends h

/-! ## Resolving -/

theorem resolve_eq_ok : o.resolve schemas = .ok r ↔
    (∀ entry ∈ o.entries, checkEntry schemas.flatten entry = .ok ()) ∧ r = schemas.flatten.foldl setDefault o := by
  unfold resolve
  rw [Except.bind_eq_ok, Unique.exists_iff]
  refine and_congr Except.forM_eq_ok ⟨fun h => ?_, fun h => h ▸ rfl⟩
  cases h
  rfl

/-- A resolved dictionary has the values that were given and the defaults of the other names. -/
theorem get?_of_resolve (h : o.resolve schemas = .ok r) (key : String) :
    r.get? key = (o.get? key).or ((schemas.flatten.find? (·.name == key)).map (·.default)) := by
  rw [(resolve_eq_ok.1 h).2, get?_foldl_setDefault]

/-- The values that were given are accepted by the declarations of their names. -/
theorem accepts_of_resolve (h : o.resolve schemas = .ok r) (hvalue : o.get? key = some value) :
    ∃ spec, schemas.flatten.find? (·.name == key) = some spec ∧ spec.kind.accepts value = true :=
  checkEntry_eq_ok.1 ((resolve_eq_ok.1 h).1 _ (get?_mem hvalue))

/-- Options resolve when every value is admitted. -/
theorem exists_resolve_iff :
    (∃ r, o.resolve schemas = .ok r) ↔ ∀ key value, o.get? key = some value → Admits schemas key value := by
  constructor
  · rintro ⟨r, h⟩ key value hvalue
    exact checkEntry_eq_ok_iff.1 ((resolve_eq_ok.1 h).1 _ (get?_eq_some.1 hvalue))
  · intro h
    refine ⟨_, resolve_eq_ok.2 ⟨fun entry hentry => ?_, rfl⟩⟩
    exact checkEntry_eq_ok_iff.2 (h _ _ (get?_eq_some.2 hentry))

/-- The entry to blame is the first one that is not admitted. -/
theorem resolve_eq_error {err : Error} : o.resolve schemas = .error err ↔
    ∃ key value fault, err = .invalidOption key fault ∧ o.get? key = some value ∧
      Offends schemas key value fault ∧ ∀ other x, o.get? other = some x → other < key → Admits schemas other x := by
  have hforM : o.resolve schemas = .error err ↔ o.entries.forM (checkEntry schemas.flatten) = .error err := by
    unfold resolve
    rw [Except.bind_eq_error]
    exact or_iff_left fun ⟨_, _, h⟩ => by cases h
  rw [hforM, Except.forM_eq_error]
  constructor
  · rintro ⟨before, ⟨key, value⟩, after, hsplit, hbefore, hentry⟩
    obtain ⟨fault, hoffends, rfl⟩ := checkEntry_eq_error.1 hentry
    refine ⟨key, value, fault, rfl, get?_eq_some.2 (by simp [hsplit]), hoffends, fun other x hother hlt => ?_⟩
    exact checkEntry_eq_ok_iff.1 (hbefore _ ((mem_before_iff hsplit).2 ⟨get?_eq_some.1 hother, hlt⟩))
  · rintro ⟨key, value, fault, rfl, hvalue, hoffends, hsmaller⟩
    obtain ⟨before, after, hsplit⟩ := List.append_of_mem (get?_eq_some.1 hvalue)
    refine ⟨before, (key, value), after, hsplit, fun y hy => ?_, checkEntry_eq_error.2 ⟨fault, hoffends, rfl⟩⟩
    obtain ⟨hmem, hlt⟩ := (mem_before_iff hsplit).1 hy
    exact checkEntry_eq_ok_iff.2 (hsmaller _ _ (get?_eq_some.2 hmem) hlt)

/-- An option is to blame when options do not resolve. -/
theorem invalidOption_of_resolve {err : Error} (h : o.resolve schemas = .error err) :
    ∃ key fault, err = .invalidOption key fault := by
  obtain ⟨key, _, fault, rfl, -⟩ := resolve_eq_error.1 h
  exact ⟨key, fault, rfl⟩

/-- The value of a truth value that is declared with the default `false`. -/
theorem boolOr_of_resolve {spec : OptionSpec} (h : o.resolve schemas = .ok r)
    (hspec : schemas.flatten.find? (·.name == key) = some spec) (hkind : spec.kind = .bool)
    (hdefault : spec.default = .bool false) (default : Bool) :
    r.boolOr key default = true ↔ o.get? key = some (.bool true) := by
  rw [boolOr, get?_of_resolve h, hspec, Option.map_some, hdefault]
  cases hvalue : o.get? key with
  | none => exact ⟨fun h => (by cases h), fun h => (by cases h)⟩
  | some value =>
    obtain ⟨_, hspec', haccepts⟩ := accepts_of_resolve h hvalue
    rw [hspec] at hspec'
    cases hspec'
    rw [hkind] at haccepts
    obtain ⟨b, rfl⟩ := OptionKind.accepts_bool.1 haccepts
    cases b <;> simp [OptionValue.asBool?]

/-- An option that counts something is refused for a negative number. -/
theorem count_of_resolve {spec : OptionSpec} {k : Int64} (h : o.resolve schemas = .ok r)
    (hspec : schemas.flatten.find? (·.name == key) = some spec) (hkind : spec.kind = .int)
    (hdefault : spec.default = .int k) (hk : ¬ k < 0) (default : Nat) :
    (∃ i, o.get? key = some (.int i) ∧ i < 0 ∧
      r.count key default = .error (.invalidOption key (.negative i))) ∨
    (∀ i, o.get? key = some (.int i) → ¬ i < 0) ∧ ∃ n, r.count key default = .ok n := by
  have hr := get?_of_resolve h key
  rw [hspec, Option.map_some, hdefault] at hr
  have hcount {i : Int64} (hi : r.get? key = some (.int i)) : r.count key default =
      if i < 0 then .error (.invalidOption key (.negative i)) else .ok i.toInt.toNat := by
    rw [count, hi]
    rfl
  cases hvalue : o.get? key with
  | none =>
    rw [hvalue, Option.none_or] at hr
    exact .inr ⟨fun i hi => (by cases hi), _, (hcount hr).trans (if_neg hk)⟩
  | some value =>
    obtain ⟨_, hspec', haccepts⟩ := accepts_of_resolve h hvalue
    rw [hspec] at hspec'
    cases hspec'
    rw [hkind] at haccepts
    obtain ⟨i, rfl⟩ := OptionKind.accepts_int.1 haccepts
    rw [hvalue, Option.some_or] at hr
    by_cases hi : i < 0
    · exact .inl ⟨i, rfl, hi, (hcount hr).trans (if_pos hi)⟩
    · refine .inr ⟨fun j hj => ?_, _, (hcount hr).trans (if_neg hi)⟩
      cases hj
      exact hi

end Options

end Lyapunov
