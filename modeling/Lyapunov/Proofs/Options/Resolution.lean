/-
The specification of resolving. Names are in the order of their bytes, so that of several options that are not
admitted the one with the least bytes is to blame. A resolved dictionary holds the entries given and the defaults
of the other names, and it resolves to itself. Smith's method reads the same settings from both.
-/
import Mathlib.Tactic.SplitIfs
import Lyapunov.Method.Smith
import Lyapunov.Proofs.Options.Resolve

namespace Lyapunov

/-! ## The order of names -/

/-- The bytes that a text is stored as. -/
def utf8Bytes (s : String) : List UInt8 := s.toUTF8.data.toList

theorem utf8Bytes_eq (s : String) : utf8Bytes s = s.toList.flatMap String.utf8EncodeChar := by
  rw [utf8Bytes, String.toUTF8_eq_toByteArray, ← String.utf8Encode_toList, List.utf8Encode,
    List.toList_data_toByteArray]

/-- The bytes of a smaller character come first, whatever follows. -/
theorem utf8EncodeChar_lt {c d : Char} (h : c < d) (xs ys : List UInt8) :
    String.utf8EncodeChar c ++ xs < String.utf8EncodeChar d ++ ys := by
  have hlt : c.val.toNat < d.val.toNat := h
  have hd : d.val.toNat < 0x110000 := d.valid.elim (Nat.lt_trans · (by decide)) (·.2)
  have hbyte {n : Nat} (hn : n < 256) : (UInt8.ofNat n).toNat = n := UInt8.toNat_ofNat_of_lt' hn
  unfold String.utf8EncodeChar
  generalize c.val.toNat = v at *
  generalize d.val.toNat = w at *
  -- among characters of four bytes the digits in base 64 decide, the leading one first
  have hdigits : v / 262144 % 8 < w / 262144 % 8 ∨ v / 262144 % 8 = w / 262144 % 8 ∧
      (v / 4096 % 64 < w / 4096 % 64 ∨ v / 4096 % 64 = w / 4096 % 64 ∧
        (v / 64 % 64 < w / 64 % 64 ∨ v / 64 % 64 = w / 64 % 64 ∧ v % 64 < w % 64)) := by
    rw [Nat.mod_eq_of_lt (by omega : v / 262144 < 8), Nat.mod_eq_of_lt (by omega : w / 262144 < 8)]
    omega
  dsimp only
  split_ifs <;>
    simp (disch := omega) only [List.cons_append, List.nil_append, List.cons_lt_cons_iff,
      UInt8.lt_iff_toNat_lt, ← UInt8.toNat_inj, hbyte] <;>
    omega

theorem utf8Bytes_lt {s t : String} (h : s < t) : utf8Bytes s < utf8Bytes t := by
  have hchars {cs ds : List Char} (hlt : cs < ds) :
      cs.flatMap String.utf8EncodeChar < ds.flatMap String.utf8EncodeChar := by
    induction hlt with
    | @nil d ds =>
      have hne : String.utf8EncodeChar d ≠ [] := String.utf8EncodeChar_ne_nil
      obtain ⟨b, bs, hd⟩ := List.exists_cons_of_ne_nil hne
      rw [List.flatMap_cons, hd]
      exact List.nil_lt_cons _ _
    | rel hcd => exact utf8EncodeChar_lt hcd _ _
    | cons _ ih => exact List.append_left_lt ih
  rw [utf8Bytes_eq, utf8Bytes_eq]
  exact hchars h

/-- Names are in the order of their bytes. -/
theorem lt_iff_utf8Bytes {s t : String} : s < t ↔ utf8Bytes s < utf8Bytes t := by
  refine ⟨utf8Bytes_lt, fun h => String.not_le.1 fun hle => ?_⟩
  rcases Decidable.em (t < s) with hlt | hnot
  · exact List.lt_asymm h (utf8Bytes_lt hlt)
  · rw [String.le_antisymm hle (String.not_lt.1 hnot)] at h
    exact List.lt_irrefl _ h

namespace Options

variable {o r : Options} {schemas : List (List OptionSpec)} {key : String}

/-! ## The resolved dictionary -/

/-- The dictionary `r` has the entries of `o`, the defaults of the other names that are declared, and nothing
else. -/
structure Completes (schemas : List (List OptionSpec)) (o r : Options) : Prop where
  names : ∀ key, r.contains key = true ↔ o.contains key = true ∨ key ∈ declaredNames schemas
  kept : ∀ key value, o.get? key = some value → r.get? key = some value
  filled : ∀ spec, FirstDeclared schemas spec → o.get? spec.name = none → r.get? spec.name = some spec.default

theorem completes_of_resolve (h : o.resolve schemas = .ok r) : Completes schemas o r where
  names key := by
    rw [contains, contains, get?_of_resolve h, Option.isSome_or, Bool.or_eq_true, Option.isSome_map]
    refine or_congr_right ?_
    rw [← not_iff_not, ← find?_eq_none_iff]
    exact Option.not_isSome_iff_eq_none
  kept key value hvalue := by rw [get?_of_resolve h, hvalue, Option.some_or]
  filled spec hspec hnone := by
    rw [get?_of_resolve h, hnone, find?_eq_some_iff_firstDeclared.2 ⟨hspec, rfl⟩]
    rfl

/-- Nothing is filled in where every name that is declared has a value. -/
theorem foldl_setDefault_eq_self {specs : List OptionSpec} (h : ∀ spec ∈ specs, o.contains spec.name = true) :
    specs.foldl setDefault o = o := by
  induction specs with
  | nil => rfl
  | cons spec specs ih =>
    obtain ⟨hspec, hspecs⟩ := List.forall_mem_cons.1 h
    rw [List.foldl_cons, setDefault, if_pos hspec, ih hspecs]

theorem firstDeclared_mem {spec : OptionSpec} (h : FirstDeclared schemas spec) : spec ∈ schemas.flatten := by
  obtain ⟨before, after, hsplit, -⟩ := h
  simp [hsplit]

theorem exists_firstDeclared (h : key ∈ declaredNames schemas) :
    ∃ spec, FirstDeclared schemas spec ∧ spec.name = key := by
  cases hfind : schemas.flatten.find? (·.name == key) with
  | none => exact absurd h (find?_eq_none_iff.1 hfind)
  | some spec => exact ⟨spec, find?_eq_some_iff_firstDeclared.1 hfind⟩

/-- A resolved dictionary resolves to itself. -/
theorem resolve_resolved (hdefaults : ∀ spec ∈ schemas.flatten, spec.kind.accepts spec.default = true)
    (h : o.resolve schemas = .ok r) : r.resolve schemas = .ok r := by
  have hr := completes_of_resolve h
  refine resolve_eq_ok.2 ⟨?_, (foldl_setDefault_eq_self ?_).symm⟩
  · rintro ⟨key, value⟩ hentry
    have hvalue : r.get? key = some value := get?_eq_some.2 hentry
    rw [checkEntry_eq_ok_iff]
    cases ho : o.get? key with
    | some x =>
      obtain rfl := Option.some.inj ((hr.kept key x ho).symm.trans hvalue)
      exact exists_resolve_iff.1 ⟨r, h⟩ key x ho
    | none =>
      have hkey : key ∈ declaredNames schemas :=
        ((hr.names key).1 (by rw [contains, hvalue]; rfl)).resolve_left (by simp [contains, ho])
      obtain ⟨spec, hspec, rfl⟩ := exists_firstDeclared hkey
      obtain rfl := Option.some.inj ((hr.filled spec hspec ho).symm.trans hvalue)
      exact ⟨spec, hspec, rfl, accepts_iff.1 (hdefaults spec (firstDeclared_mem hspec))⟩
  · exact fun spec hspec => (hr.names spec.name).2 (.inr (List.mem_map_of_mem hspec))

/-! ## Settings of Smith's method -/

/-- The declarations of a schema are the first ones where no schema before it declares its names. -/
theorem firstDeclared_of_schema {before after : List (List OptionSpec)}
    {options ahead behind : List OptionSpec} {spec : OptionSpec}
    (hschemas : schemas = before ++ options :: after) (hoptions : options = ahead ++ spec :: behind)
    (hahead : ∀ other ∈ ahead, other.name ≠ spec.name)
    (hbefore : ∀ other ∈ before.flatten, other.name ∉ options.map (·.name)) : FirstDeclared schemas spec := by
  refine ⟨before.flatten ++ ahead, behind ++ after.flatten, by simp [hschemas, hoptions], ?_⟩
  intro other hother
  rcases List.mem_append.1 hother with hother | hother
  · exact fun hname => hbefore other hother (by simp [hoptions, hname])
  · exact hahead other hother

/-- A number that counts is read as before where its declared default is the one it is read with. -/
theorem Completes.count_eq {spec : OptionSpec} {k : Int64} (hr : Completes schemas o r)
    (hspec : FirstDeclared schemas spec) (hdefault : spec.default = .int k) (hk : ¬ k < 0) :
    r.count spec.name k.toInt.toNat = o.count spec.name k.toInt.toNat := by
  unfold count
  cases ho : o.get? spec.name with
  | some value => rw [hr.kept _ _ ho]
  | none =>
    rw [hr.filled _ hspec ho, hdefault]
    exact if_neg hk

theorem Completes.boolOr_eq {spec : OptionSpec} {b : Bool} (hr : Completes schemas o r)
    (hspec : FirstDeclared schemas spec) (hdefault : spec.default = .bool b) :
    r.boolOr spec.name b = o.boolOr spec.name b := by
  unfold boolOr
  cases ho : o.get? spec.name with
  | some value => rw [hr.kept _ _ ho]
  | none =>
    rw [hr.filled _ hspec ho, hdefault]
    rfl

/-- Filling in the defaults does not change the settings of Smith's method. -/
theorem Completes.ofOptions_eq (hr : Completes schemas o r) (hiter : FirstDeclared schemas Smith.iterSpec)
    (hdoubling : FirstDeclared schemas Smith.freqDoublingSpec) :
    Smith.Settings.ofOptions r = Smith.Settings.ofOptions o := by
  have hcount : r.count "iter" 100 = o.count "iter" 100 := hr.count_eq hiter rfl (by decide)
  have hbool : r.boolOr "freq_doubling" false = o.boolOr "freq_doubling" false := hr.boolOr_eq hdoubling rfl
  unfold Smith.Settings.ofOptions
  dsimp only
  rw [hcount, hbool]

/-- Options resolve exactly when every value is admitted by the first declaration of its name, and otherwise
the name to blame is the one with the least bytes whose value is not. The resolved dictionary has the values
given and the defaults of the other names, and resolves to itself. Smith's method reads the same settings from
it, wherever its schema stands, as long as the ones before declare none of its options. -/
theorem resolve_spec (o : Options) (schemas : List (List OptionSpec))
    (hdefaults : ∀ spec ∈ schemas.flatten, spec.kind.accepts spec.default = true) :
    ((∃ r, o.resolve schemas = .ok r) ↔ ∀ key value, o.get? key = some value → Admits schemas key value) ∧
    (∀ err, o.resolve schemas = .error err ↔
      ∃ key value fault, err = .invalidOption key fault ∧ o.get? key = some value ∧
        Offends schemas key value fault ∧
        ∀ other x, o.get? other = some x → utf8Bytes other < utf8Bytes key → Admits schemas other x) ∧
    ∀ r, o.resolve schemas = .ok r →
      Completes schemas o r ∧ r.resolve schemas = .ok r ∧
      ∀ before after, schemas = before ++ Smith.dleOptions :: after →
        (∀ spec ∈ before.flatten, spec.name ∉ Smith.dleOptions.map (·.name)) →
        Smith.Settings.ofOptions r = Smith.Settings.ofOptions o := by
  refine ⟨exists_resolve_iff, fun err => ?_, fun r h => ⟨completes_of_resolve h, resolve_resolved hdefaults h,
    fun before after hschemas hbefore => ?_⟩⟩
  · simp only [← lt_iff_utf8Bytes]
    exact resolve_eq_error
  · have hiter : FirstDeclared schemas Smith.iterSpec :=
      firstDeclared_of_schema hschemas (List.nil_append _).symm (by simp) hbefore
    have hdoubling : FirstDeclared schemas Smith.freqDoublingSpec :=
      firstDeclared_of_schema hschemas (show Smith.dleOptions = [Smith.iterSpec] ++ _ from rfl)
        (by simp [Smith.iterSpec, Smith.freqDoublingSpec]) hbefore
    exact (completes_of_resolve h).ofOptions_eq hiter hdoubling

/-- Schemas that declare a number of iterations twice. -/
def repeatedIter : List (List OptionSpec) :=
  [OptionSpec.generic, Smith.dleOptions,
    [{ name := "iter", kind := .str, default := .str "many", description := "How many iterations" }]]

theorem firstDeclared_repeatedIter :
    FirstDeclared repeatedIter Smith.iterSpec ∧ FirstDeclared repeatedIter Smith.freqDoublingSpec :=
  ⟨⟨OptionSpec.generic, _, rfl, by decide⟩, ⟨OptionSpec.generic ++ [Smith.iterSpec], _, rfl, by decide⟩⟩

theorem resolve_repeatedIter :
    (∀ spec ∈ repeatedIter.flatten, spec.kind.accepts spec.default = true) ∧
    ((empty.set "zeta" (.bool true)).set "iter" (.str "few")).resolve repeatedIter =
      .error (.invalidOption "iter" (.wrongKind .int .str)) ∧
    ∃ r, (empty.set "iter" (.int (-1))).resolve repeatedIter = .ok r ∧ r.resolve repeatedIter = .ok r ∧
      r.get? "iter" = some (.int (-1)) ∧ r.get? "freq_doubling" = some (.bool false) ∧
      Smith.Settings.ofOptions r = Smith.Settings.ofOptions (empty.set "iter" (.int (-1))) := by
  obtain ⟨hiter, hdoubling⟩ := firstDeclared_repeatedIter
  have hdefaults : ∀ spec ∈ repeatedIter.flatten, spec.kind.accepts spec.default = true := by decide
  refine ⟨hdefaults, ((resolve_spec _ _ hdefaults).2.1 _).2 ?_, ?_⟩
  · refine ⟨"iter", .str "few", _, rfl, by simp [get?_set], .wrongKind hiter rfl (by decide) (by decide), ?_⟩
    intro other x hother hlt
    rw [← lt_iff_utf8Bytes] at hlt
    rw [get?_set, get?_set] at hother
    split_ifs at hother with h h'
    · exact absurd (h ▸ hlt) (String.lt_irrefl _)
    · exact absurd (h' ▸ hlt) (by decide)
    · cases hother
  · obtain ⟨hok, -, hresolved⟩ := resolve_spec (empty.set "iter" (.int (-1))) _ hdefaults
    have hadmits (key : String) (value : OptionValue)
        (h : (empty.set "iter" (.int (-1))).get? key = some value) : Admits repeatedIter key value := by
      rw [get?_set] at h
      split_ifs at h with hkey
      · cases h
        exact ⟨_, hiter, hkey, .inl rfl⟩
      · cases h
    obtain ⟨r, hr⟩ := hok.2 hadmits
    obtain ⟨hcompletes, hagain, hsettings⟩ := hresolved r hr
    refine ⟨r, hr, hagain, hcompletes.kept _ _ (by simp [get?_set]), hcompletes.filled _ hdoubling ?_,
      hsettings [OptionSpec.generic] _ rfl (by decide)⟩
    exact (get?_set _ _ _ _).trans (if_neg (by decide))

end Options

end Lyapunov
