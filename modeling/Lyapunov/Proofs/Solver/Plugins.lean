/-
The plugins that solvers are made with: under their names, and with options that they accept, they build
like the methods. Options for Smith's method ask for its settings.
-/
import Lyapunov.Proofs.Solver.Function

namespace Lyapunov

/-! ## Options -/

namespace Options

/-- The options resolve to `r`, which assumes nothing that methods refuse. -/
structure Accepted (o : Options) (schemas : List (List OptionSpec)) (r : Options) : Prop where
  resolve : o.resolve schemas = .ok r
  reject : r.rejectPositiveDefinite = .ok ()

theorem contains_set (o : Options) (key other : String) (value : OptionValue) :
    (o.set key value).contains other = (key == other || o.contains other) := by
  rw [contains, get?_set, contains]
  split
  · rename_i h
    rw [beq_iff_eq.2 h]
    rfl
  · rename_i h
    rw [beq_false_of_ne h]
    rfl

/-- A number that fits into 64 bits with a sign is read as itself. -/
theorem count_of_get? {o : Options} {key : String} {k : Nat} (hk : k < 2 ^ 63)
    (h : o.get? key = some (.int (.ofNat k))) (default : Nat) : o.count key default = .ok k := by
  have hint := Int64.toInt_ofNat_of_lt hk
  have hneg : ¬ (Int64.ofNat k < 0) := by
    rw [Int64.lt_iff_toInt_lt, hint]
    exact not_lt.2 (Int.natCast_nonneg k)
  rw [count, h]
  show (if Int64.ofNat k < 0 then _ else _) = _
  rw [if_neg hneg, hint]
  rfl

theorem rejectPositiveDefinite_set (o : Options) :
    (o.set "pos_def" (.bool false)).rejectPositiveDefinite = .ok () := by
  rw [rejectPositiveDefinite, boolOr, get?_set]
  rfl

end Options

/-! ## Smith's method -/

namespace Smith

/-- The options are accepted, and the method makes the settings of them. -/
def Settings.AskedBy (settings : Settings) (schemas : List (List OptionSpec)) (o : Options) : Prop :=
  ∃ r, o.Accepted schemas r ∧ ofOptions r = .ok settings

/-- The options that ask for the settings. -/
def Settings.options (s : Settings) : Options :=
  .ofList [("iter", .int (.ofNat s.iter)), ("freq_doubling", .bool s.freqDoubling)]

/-- The options that ask for a number of terms. -/
def termOptions (k : Nat) : Options := .ofList [("iter", .int (.ofNat k))]

theorem Settings.entries_options (s : Settings) :
    s.options.entries = [("freq_doubling", .bool s.freqDoubling), ("iter", .int (.ofNat s.iter))] := by
  have h : "freq_doubling" < "iter" := by decide
  simp [options, Options.ofList, Options.set, Options.insertEntry, Options.empty, h]

theorem Settings.get?_options (s : Settings) (name : String) :
    s.options.get? name = ([("freq_doubling", .bool s.freqDoubling), ("iter", .int (.ofNat s.iter))].find?
      (·.1 == name)).map (·.2) := by
  rw [Options.get?, entries_options]

section

variable (K : Type) [Scalar K]

/-- All defaults but one are overridden. -/
theorem Settings.resolve_options (s : Settings) :
    s.options.resolve (dlePlugin K).schemas = .ok (s.options.set "pos_def" (.bool false)) := by
  have hcheck : s.options.entries.forM (Options.checkEntry (dlePlugin K).schemas.flatten) = .ok () := by
    rw [entries_options]
    rfl
  have hpos : s.options.contains "pos_def" = false := by rw [Options.contains, get?_options]; rfl
  have hiter : s.options.contains "iter" = true := by rw [Options.contains, get?_options]; rfl
  have hfreq : s.options.contains "freq_doubling" = true := by rw [Options.contains, get?_options]; rfl
  rw [Options.resolve, hcheck]
  simp [Plugin.schemas, OptionSpec.generic, dlePlugin, dleOptions, iterSpec, freqDoublingSpec,
    Options.setDefault, Options.contains_set, hpos, hiter, hfreq, bind, Except.bind, pure, Except.pure]

/-- A single default is added. -/
theorem resolve_termOptions (k : Nat) :
    (termOptions k).resolve (lowRankPlugin K).schemas = .ok ((termOptions k).set "pos_def" (.bool false)) := by
  have hcheck : (termOptions k).entries.forM (Options.checkEntry (lowRankPlugin K).schemas.flatten) = .ok () :=
    rfl
  have hpos : (termOptions k).contains "pos_def" = false := rfl
  have hiter : (termOptions k).contains "iter" = true := rfl
  rw [Options.resolve, hcheck]
  simp [Plugin.schemas, OptionSpec.generic, lowRankPlugin, lowRankOptions, iterSpec, Options.setDefault,
    Options.contains_set, hpos, hiter, bind, Except.bind, pure, Except.pure]

end

theorem Settings.ofOptions_set {o : Options} {s : Settings} (hs : s.iter < 2 ^ 63)
    (hiter : o.get? "iter" = some (.int (.ofNat s.iter)))
    (hfreq : o.boolOr "freq_doubling" false = s.freqDoubling) :
    Settings.ofOptions (o.set "pos_def" (.bool false)) = .ok s := by
  have hiter' : (o.set "pos_def" (.bool false)).get? "iter" = some (.int (.ofNat s.iter)) := by
    rw [Options.get?_set, if_neg (by decide), hiter]
  have hfreq' : (o.set "pos_def" (.bool false)).boolOr "freq_doubling" false = s.freqDoubling := by
    rw [Options.boolOr, Options.get?_set, if_neg (by decide)]
    exact hfreq
  rw [Settings.ofOptions, Options.count_of_get? hs hiter', hfreq']
  rfl

section

variable (K : Type) [Scalar K]

theorem Settings.askedBy_options (s : Settings) (hs : s.iter < 2 ^ 63) :
    s.AskedBy (dlePlugin K).schemas s.options := by
  refine ⟨_, ⟨s.resolve_options K, Options.rejectPositiveDefinite_set _⟩, ofOptions_set hs ?_ ?_⟩
  · exact (s.get?_options _).trans rfl
  · rw [Options.boolOr, s.get?_options]
    rfl

theorem askedBy_termOptions {k : Nat} (hk : k < 2 ^ 63) :
    Settings.AskedBy ⟨k, false⟩ (lowRankPlugin K).schemas (termOptions k) :=
  ⟨_, ⟨resolve_termOptions K k, Options.rejectPositiveDefinite_set _⟩,
    Settings.ofOptions_set (s := ⟨k, false⟩) hk rfl rfl⟩

end

variable {K : Type} [Scalar K] {settings : Settings} {o : Options}

theorem offers_dle (h : settings.AskedBy (dlePlugin K).schemas o) :
    Problem.Offers Dle "fixed_smith" o fun i : DleInputs K => dle i.a i.v settings := by
  obtain ⟨r, ⟨hr, hreject⟩, hsettings⟩ := h
  refine ⟨dlePlugin K, r, rfl, hr, fun i => ?_⟩
  show (do
    liftM r.rejectPositiveDefinite
    let settings ← liftM (Settings.ofOptions r)
    liftM (dle i.a i.v settings)) = (liftM (dle i.a i.v settings) : TryBuild (Expr K))
  rw [hreject, hsettings]
  rfl

theorem offers_lowRank (h : settings.AskedBy (lowRankPlugin K).schemas o) :
    Problem.Offers LowRankDle "fixed_smith" o fun i : LowRankInputs K => lowRank i settings.iter := by
  obtain ⟨r, ⟨hr, hreject⟩, hsettings⟩ := h
  refine ⟨lowRankPlugin K, r, rfl, hr, fun i => ?_⟩
  show (do
    liftM r.rejectPositiveDefinite
    let settings ← liftM (Settings.ofOptions r)
    liftM (lowRank i settings.iter)) = (liftM (lowRank i settings.iter) : TryBuild (Expr K))
  rw [hreject, hsettings]
  rfl

end Smith

/-! ## The direct method -/

namespace Kronecker

/-- Nothing has to be asked for. -/
theorem accepted_empty : ∃ r, Options.empty.Accepted [OptionSpec.generic, []] r :=
  ⟨Options.empty.set "pos_def" (.bool false), rfl, rfl⟩

variable {K : Type} [Scalar K] {o r : Options}

theorem offers_dle (h : o.Accepted [OptionSpec.generic, []] r) :
    Problem.Offers Dle "simple" o fun i : DleInputs K => dle i.a i.v := by
  refine ⟨dlePlugin K, r, rfl, h.resolve, fun i => ?_⟩
  show (do
    liftM r.rejectPositiveDefinite
    liftM (dle i.a i.v)) = (liftM (dle i.a i.v) : TryBuild (Expr K))
  rw [h.reject]
  rfl

theorem offers_lowRank (h : o.Accepted [OptionSpec.generic, []] r) :
    Problem.Offers LowRankDle "simple" o fun i : LowRankInputs K => lowRank i := by
  refine ⟨lowRankPlugin K, r, rfl, h.resolve, fun i => ?_⟩
  show (do
    liftM r.rejectPositiveDefinite
    liftM (lowRank i)) = (liftM (lowRank i) : TryBuild (Expr K))
  rw [h.reject]
  rfl

end Kronecker

end Lyapunov
