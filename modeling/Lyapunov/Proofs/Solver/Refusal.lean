/-
What solvers are refused for: a plugin that is not known, shapes for which the equation makes no sense, and
options that do not resolve or that the method does not take. Nothing else is refused: what the methods
build for shapes that make sense is a function of the data, and its output has the shape of the answer.
-/
import Lyapunov.Proofs.Options.Resolve
import Lyapunov.Proofs.Solver.Made

namespace Lyapunov

open Build Lyapunov.Dense

/-! ## Options of a method -/

namespace Plugin

variable {I α : Type} {p : Plugin I α} {o r : Options}

/-- The errors that options for a method are refused with. -/
inductive Refuses (p : Plugin I α) (o : Options) : Error → Prop where
  | unresolved {key : String} {fault : OptionFault} :
    o.resolve p.schemas = .error (.invalidOption key fault) → p.Refuses o (.invalidOption key fault)
  | positiveDefinite {r : Options} : o.resolve p.schemas = .ok r → o.get? "pos_def" = some (.bool true) →
    p.Refuses o .positiveDefinite
  | negative {r : Options} {i : Int64} : p.name = "fixed_smith" → o.resolve p.schemas = .ok r →
    o.get? "pos_def" ≠ some (.bool true) → o.get? "iter" = some (.int i) → i < 0 →
    p.Refuses o (.invalidOption "iter" (.negative i))

/-- The plugin builds nothing with the options: they do not resolve, or it fails with what they resolve
to whatever the data are. -/
def StopsWith (p : Plugin I α) (o : Options) (err : Error) : Prop :=
  o.resolve p.schemas = .error err ∨ ∃ r, o.resolve p.schemas = .ok r ∧ ∀ i, p.build i r = throw err

/-- With the options the plugin builds like `build`. -/
def BuildsLike (p : Plugin I α) (o : Options) (build : I → Build (Expr α)) : Prop :=
  ∃ r, o.resolve p.schemas = .ok r ∧ ∀ i, p.build i r = liftM (build i)

/-- Every plugin declares the assumption of a positive definite solution. -/
theorem rejectPositiveDefinite_of_resolve (h : o.resolve p.schemas = .ok r) :
    (o.get? "pos_def" = some (.bool true) → r.rejectPositiveDefinite = .error .positiveDefinite) ∧
      (o.get? "pos_def" ≠ some (.bool true) → r.rejectPositiveDefinite = .ok ()) := by
  have hbool : r.boolOr "pos_def" false = true ↔ o.get? "pos_def" = some (.bool true) :=
    Options.boolOr_of_resolve h rfl rfl rfl false
  unfold Options.rejectPositiveDefinite
  exact ⟨fun hpos => if_pos (hbool.2 hpos), fun hpos => if_neg (mt hbool.1 hpos)⟩

/-- A plugin that builds with `method` from the data and settings, which it reads from its options after the
assumption of a positive definite solution is refused. Only a negative number of steps is refused then. -/
structure IsMethod {σ : Type} (p : Plugin I α) (read : Options → Except Error σ)
    (method : I → σ → Build (Expr α)) : Prop where
  build : ∀ i r, p.build i r = do
    liftM r.rejectPositiveDefinite
    let settings ← liftM (read r)
    liftM (method i settings)
  reads : ∀ {o r : Options}, o.resolve p.schemas = .ok r →
    (∃ i, p.name = "fixed_smith" ∧ o.get? "iter" = some (.int i) ∧ i < 0 ∧
      read r = .error (.invalidOption "iter" (.negative i))) ∨
    (p.name = "fixed_smith" → ∀ i, o.get? "iter" = some (.int i) → ¬ i < 0) ∧ ∃ settings, read r = .ok settings

/-- Smith's method reads its settings from the options. -/
theorem isMethod_smith {method : I → Smith.Settings → Build (Expr α)} (hname : p.name = "fixed_smith")
    (hiter : p.schemas.flatten.find? (·.name == "iter") = some Smith.iterSpec)
    (hbuild : ∀ i r, p.build i r = do
      liftM r.rejectPositiveDefinite
      let settings ← liftM (Smith.Settings.ofOptions r)
      liftM (method i settings)) : p.IsMethod Smith.Settings.ofOptions method where
  build := hbuild
  reads {o r} h := by
    unfold Smith.Settings.ofOptions
    dsimp only
    refine (Options.count_of_resolve h hiter rfl rfl (by decide) 100).imp ?_ ?_
    · rintro ⟨i, hi, hneg, hcount⟩
      exact ⟨i, hname, hi, hneg, by rw [hcount]; rfl⟩
    · rintro ⟨hpos, n, hcount⟩
      exact ⟨fun _ => hpos, ⟨n, r.boolOr "freq_doubling" false⟩, by rw [hcount]; rfl⟩

/-- The direct method has no settings. -/
theorem isMethod_direct {method : I → Build (Expr α)} (hname : p.name = "simple")
    (hbuild : ∀ i r, p.build i r = do
      liftM r.rejectPositiveDefinite
      liftM (method i)) : p.IsMethod (fun _ => pure ()) fun i _ => method i where
  build := hbuild
  reads _ := .inr ⟨fun h => absurd (hname.symm.trans h) (by decide), (), rfl⟩

section

variable {σ : Type} {read : Options → Except Error σ} {method : I → σ → Build (Expr α)}

theorem IsMethod.stopsWith (hp : p.IsMethod read method) {err : Error} (h : p.Refuses o err) :
    p.StopsWith o err := by
  cases h with
  | unresolved h => exact .inl h
  | @positiveDefinite r h hpos =>
    refine .inr ⟨r, h, fun i => ?_⟩
    rw [hp.build, (rejectPositiveDefinite_of_resolve h).1 hpos]
    rfl
  | @negative r i hname h hpos hi hneg =>
    refine .inr ⟨r, h, fun j => ?_⟩
    rcases hp.reads h with ⟨i', -, hi', -, hread⟩ | ⟨hnone, -⟩
    · rw [hi] at hi'
      cases hi'
      rw [hp.build, (rejectPositiveDefinite_of_resolve h).2 hpos, hread]
      rfl
    · exact absurd hneg (hnone hname i hi)

theorem IsMethod.refuses_or (hp : p.IsMethod read method) (o : Options) :
    (∃ err, p.Refuses o err) ∨ ∃ settings, p.BuildsLike o (method · settings) := by
  cases h : o.resolve p.schemas with
  | error err =>
    obtain ⟨key, fault, rfl⟩ := Options.invalidOption_of_resolve h
    exact .inl ⟨_, .unresolved h⟩
  | ok r =>
    by_cases hpos : o.get? "pos_def" = some (.bool true)
    · exact .inl ⟨_, .positiveDefinite h hpos⟩
    rcases hp.reads h with ⟨i, hname, hi, hneg, -⟩ | ⟨-, settings, hread⟩
    · exact .inl ⟨_, .negative hname h hpos hi hneg⟩
    · refine .inr ⟨settings, r, h, fun i => ?_⟩
      rw [hp.build, (rejectPositiveDefinite_of_resolve h).2 hpos, hread]
      rfl

end

/-- Plugins with different names are looked up by their names. -/
theorem lookup?_eq_some {plugins : List (Plugin I α)} (hnames : (plugins.map (·.name)).Nodup)
    (hp : p ∈ plugins) : lookup? plugins p.name = some p := by
  unfold lookup?
  cases hfind : plugins.find? (·.name == p.name) with
  | none => exact absurd BEq.rfl (List.find?_eq_none.1 hfind p hp)
  | some q =>
    have hname := List.find?_some hfind
    rw [List.inj_on_of_nodup_map hnames (List.mem_of_find?_eq_some hfind) hp (beq_iff_eq.1 hname)]

theorem lookup?_eq_none {plugins : List (Plugin I α)} {name : String} :
    lookup? plugins name = none ↔ name ∉ plugins.map (·.name) := by
  unfold lookup?
  rw [List.find?_eq_none]
  simp

end Plugin

/-! ## Options of the plugins -/

section

variable {α : Type} [Scalar α] {o : Options}

/-- What a plugin for the low-rank equation refuses it stops with, and else it builds like a method. -/
theorem LowRankDle.stopsWith_or {p : Plugin (LowRankInputs α) α} (hp : p ∈ LowRankDle.plugins α)
    (o : Options) : (∀ err, p.Refuses o err → p.StopsWith o err) ∧
      ((∃ err, p.Refuses o err) ∨ ∃ build, Builds p.name build ∧ p.BuildsLike o build) := by
  simp only [LowRankDle.plugins, List.mem_cons, List.not_mem_nil, or_false] at hp
  rcases hp with rfl | rfl
  · have hmethod : (Smith.lowRankPlugin α).IsMethod Smith.Settings.ofOptions fun i settings =>
        Smith.lowRank i settings.iter := Plugin.isMethod_smith rfl rfl fun _ _ => rfl
    refine ⟨fun _ => hmethod.stopsWith, (hmethod.refuses_or o).imp_right ?_⟩
    rintro ⟨settings, h⟩
    exact ⟨_, .smith settings.iter, h⟩
  · have hmethod : (Kronecker.lowRankPlugin α).IsMethod (fun _ => pure ()) fun i _ => Kronecker.lowRank i :=
      Plugin.isMethod_direct rfl fun _ _ => rfl
    refine ⟨fun _ => hmethod.stopsWith, (hmethod.refuses_or o).imp_right ?_⟩
    rintro ⟨-, h⟩
    exact ⟨_, .direct, h⟩

/-- The options for the method that options name. -/
def LowRankMethod.innerOptions (o : Options) : Options :=
  ((o.get? "lr_dle_solver_options").bind (·.asDict?)).getD .empty

/-- The errors that options for a plugin for the full equation are refused with. The plugin that hands the
equation over refuses what the plugin that its options name refuses. -/
inductive Dle.Refuses (p : Plugin (DleInputs α) α) (o : Options) : Error → Prop where
  | method {err : Error} : p.name ≠ "lrdle" → p.Refuses o err → Refuses p o err
  | unresolved {key : String} {fault : OptionFault} : p.name = "lrdle" →
    o.resolve p.schemas = .error (.invalidOption key fault) → Refuses p o (.invalidOption key fault)
  | unknownMethod {r : Options} : p.name = "lrdle" → o.resolve p.schemas = .ok r →
    LowRankMethod.methodName o ∉ (LowRankDle.plugins α).map (·.name) →
    Refuses p o (.unknownSolver "LR-DLE" (LowRankMethod.methodName o))
  | handedOver {r : Options} {q : Plugin (LowRankInputs α) α} {err : Error} : p.name = "lrdle" →
    o.resolve p.schemas = .ok r → q ∈ LowRankDle.plugins α → q.name = LowRankMethod.methodName o →
    q.Refuses (LowRankMethod.innerOptions o) err → Refuses p o err

theorem LowRankDle.names_nodup : ((LowRankDle.plugins α).map (·.name)).Nodup := by
  simp [LowRankDle.plugins, Smith.lowRankPlugin, Kronecker.lowRankPlugin]

theorem Dle.names_nodup : ((Dle.plugins α).map (·.name)).Nodup := by
  simp [Dle.plugins, Smith.dlePlugin, LowRankMethod.dlePlugin, Kronecker.dlePlugin]

namespace LowRankMethod

/-- Resolving does not change what the options name. -/
theorem methodName_of_resolve {r : Options} (h : o.resolve (dlePlugin α).schemas = .ok r) :
    methodName r = methodName o ∧ innerOptions r = innerOptions o := by
  unfold methodName innerOptions
  rw [Options.get?_of_resolve h, Options.get?_of_resolve h]
  constructor
  · cases o.get? "lr_dle_solver" <;> rfl
  · cases o.get? "lr_dle_solver_options" <;> rfl

theorem build_of_not_mem {r : Options} (h : methodName r ∉ (LowRankDle.plugins α).map (·.name))
    (i : DleInputs α) : build α i r = throw (.unknownSolver "LR-DLE" (methodName r)) := by
  unfold build
  rw [← methodName]
  dsimp only
  rw [Plugin.lookup?_eq_none.2 h]

section

variable {r : Options} {q : Plugin (LowRankInputs α) α} (hq : q ∈ LowRankDle.plugins α)
  (hname : q.name = methodName r)

include hq hname

theorem build_of_mem (i : DleInputs α) : build α i r =
    liftM ((innerOptions r).resolve q.schemas) >>= q.build { a := i.a, v := i.v } := by
  unfold build
  rw [← methodName, ← innerOptions]
  dsimp only
  rw [← hname, Plugin.lookup?_eq_some LowRankDle.names_nodup hq]

theorem build_of_stopsWith {err : Error} (h : q.StopsWith (innerOptions r) err) (i : DleInputs α) :
    build α i r = throw err := by
  rw [build_of_mem hq hname]
  rcases h with h | ⟨r', h, hbuild⟩
  · rw [h]
    rfl
  · rw [h]
    exact hbuild _

theorem build_of_buildsLike {method : LowRankInputs α → Build (Expr α)}
    (h : q.BuildsLike (innerOptions r) method) (i : DleInputs α) :
    build α i r = liftM (method { a := i.a, v := i.v }) := by
  obtain ⟨r', h, hbuild⟩ := h
  rw [build_of_mem hq hname, h]
  exact hbuild _

end

end LowRankMethod

/-- What a plugin for the full equation refuses it stops with, and else it builds like a method. -/
theorem Dle.stopsWith_or {p : Plugin (DleInputs α) α} (hp : p ∈ Dle.plugins α) (o : Options) :
    (∀ err, Dle.Refuses p o err → p.StopsWith o err) ∧
      ((∃ err, Dle.Refuses p o err) ∨ ∃ method build, Builds method build ∧ p.BuildsLike o build) := by
  have hown {σ : Type} {p : Plugin (DleInputs α) α} {read : Options → Except Error σ}
      {method : DleInputs α → σ → Build (Expr α)} (hname : p.name ≠ "lrdle") (hp : p.IsMethod read method)
      {name : String} (hbuilds : ∀ settings, Builds name (method · settings)) :
      (∀ err, Dle.Refuses p o err → p.StopsWith o err) ∧
        ((∃ err, Dle.Refuses p o err) ∨ ∃ method build, Builds method build ∧ p.BuildsLike o build) := by
    refine ⟨fun err h => ?_, (hp.refuses_or o).imp (fun ⟨err, h⟩ => ⟨err, .method hname h⟩)
      fun ⟨settings, h⟩ => ⟨_, _, hbuilds settings, h⟩⟩
    cases h with
    | method _ h => exact hp.stopsWith h
    | unresolved h | unknownMethod h | handedOver h => exact absurd h hname
  simp only [Dle.plugins, List.mem_cons, List.not_mem_nil, or_false] at hp
  rcases hp with rfl | rfl | rfl
  · exact hown (by simp [Smith.dlePlugin]) (Plugin.isMethod_smith rfl rfl fun _ _ => rfl) .smith
  · refine ⟨fun err h => ?_, ?_⟩
    · cases h with
      | method h => exact absurd rfl h
      | unresolved _ h => exact .inl h
      | unknownMethod _ h hunknown =>
        obtain ⟨hmethod, -⟩ := LowRankMethod.methodName_of_resolve h
        rw [← hmethod] at hunknown ⊢
        exact .inr ⟨_, h, LowRankMethod.build_of_not_mem hunknown⟩
      | handedOver _ h hq hname hrefuses =>
        obtain ⟨hmethod, hinner⟩ := LowRankMethod.methodName_of_resolve h
        rw [← hmethod] at hname
        rw [← hinner] at hrefuses
        exact .inr ⟨_, h, LowRankMethod.build_of_stopsWith hq hname ((LowRankDle.stopsWith_or hq _).1 _ hrefuses)⟩
    · cases h : o.resolve (LowRankMethod.dlePlugin α).schemas with
      | error err =>
        obtain ⟨key, fault, rfl⟩ := Options.invalidOption_of_resolve h
        exact .inl ⟨_, .unresolved rfl h⟩
      | ok r =>
        obtain ⟨hmethod, hinner⟩ := LowRankMethod.methodName_of_resolve h
        by_cases hknown : LowRankMethod.methodName o ∈ (LowRankDle.plugins α).map (·.name)
        · obtain ⟨q, hq, hname⟩ := List.mem_map.1 hknown
          rcases (LowRankDle.stopsWith_or hq (LowRankMethod.innerOptions o)).2 with ⟨err, hrefuses⟩ |
            ⟨build, hbuilds, hlike⟩
          · exact .inl ⟨err, .handedOver rfl h hq hname hrefuses⟩
          · rw [← hmethod] at hname
            rw [← hinner] at hlike
            exact .inr ⟨_, _, .handedOver hbuilds, r, h, LowRankMethod.build_of_buildsLike hq hname hlike⟩
        · exact .inl ⟨_, .unknownMethod rfl h hknown⟩
  · exact hown (by simp [Kronecker.dlePlugin]) (Plugin.isMethod_direct rfl fun _ _ => rfl) fun _ => .direct

end

/-! ## Shapes -/

/-- The checks refuse nothing but shapes. -/
def OnlyShapes (x : Except Error Unit) : Prop :=
  ∀ err, x = .error err → ∃ requirement got, err = .shapeMismatch requirement got

theorem onlyShapes_pure : OnlyShapes (pure ()) := fun _ h => by cases h

theorem onlyShapes_require {condition : Bool} {requirement : ShapeRequirement} {got : Shape} :
    OnlyShapes (got.require condition requirement) :=
  fun _ h => ⟨_, _, (Shape.require_eq_error.1 h).2⟩

theorem OnlyShapes.bind {x : Except Error Unit} {k : Unit → Except Error Unit} (hx : OnlyShapes x)
    (hk : OnlyShapes (k ())) : OnlyShapes (x >>= k) := by
  intro err h
  rcases Except.bind_eq_error.1 h with h | ⟨⟨⟩, -, h⟩
  · exact hx err h
  · exact hk err h

/-- Checks that refuse nothing but shapes, and accept exactly what is valid, refuse all else as shapes. -/
theorem OnlyShapes.eq_error_iff {x : Except Error Unit} (hx : OnlyShapes x) {valid : Prop}
    (hvalid : x = .ok () ↔ valid) :
    (∃ requirement got, x = .error (.shapeMismatch requirement got)) ↔ ¬ valid := by
  rw [← hvalid]
  cases x with
  | ok => simp
  | error err =>
    obtain ⟨requirement, got, rfl⟩ := hx err rfl
    simp

theorem Dle.onlyShapes_validate (e : Dle) : OnlyShapes e.validate :=
  onlyShapes_require.bind onlyShapes_require

theorem LowRankDle.onlyShapes_validate (e : LowRankDle) : OnlyShapes e.validate := by
  obtain ⟨a, v, c, h, widths⟩ := e
  refine onlyShapes_require.bind ?_
  cases c with
  | none =>
    refine onlyShapes_require.bind ?_
    cases h with
    | none => exact onlyShapes_pure
    | some h => exact onlyShapes_require.bind onlyShapes_require
  | some c =>
    refine onlyShapes_require.bind (onlyShapes_require.bind ?_)
    cases h with
    | none => exact onlyShapes_pure
    | some h => exact onlyShapes_require.bind onlyShapes_require

/-- Shapes for which the full equation makes sense. -/
def Dle.Valid (e : Dle) : Prop := e.a = .square e.a.rows ∧ e.v = e.a

theorem Dle.valid_iff {e : Dle} : e.Valid ↔ e = .square e.a.rows := by
  obtain ⟨a, v⟩ := e
  rw [Valid, square, Dle.mk.injEq]
  exact and_congr_right fun ha => by rw [← ha]

/-- Shapes that make no sense for the full equation are refused, and no others. -/
theorem Dle.validate_eq_error_iff {e : Dle} :
    (∃ requirement got, e.validate = .error (.shapeMismatch requirement got)) ↔ ¬ e.Valid :=
  e.onlyShapes_validate.eq_error_iff (validate_eq_ok.trans valid_iff.symm)

/-- Shapes that make no sense for the low-rank equation are refused, and no others. -/
theorem LowRankDle.validate_eq_error_iff {e : LowRankDle} :
    (∃ requirement got, e.validate = .error (.shapeMismatch requirement got)) ↔ ¬ e.Valid :=
  e.onlyShapes_validate.eq_error_iff validate_eq_ok

/-! ## Making a solver -/

namespace Solver

variable {σ : Type} {ι : Type → Type} [Problem σ ι] {α : Type} [Scalar α]

/-- The errors that making a solver fails with, in the order of the checks: `valid` says for which shapes
the options matter, and `refuses` which options a plugin refuses. -/
inductive Refuses (refuses : Plugin (ι α) α → Options → Error → Prop) (valid : σ → Prop) (plugin : String)
    (problem : σ) (o : Options) : Error → Prop where
  | unknownSolver : plugin ∉ (Problem.plugins σ α).map (·.name) →
    Refuses refuses valid plugin problem o (.unknownSolver (Problem.kind σ) plugin)
  | shapes {requirement : ShapeRequirement} {got : Shape} : plugin ∈ (Problem.plugins σ α).map (·.name) →
    Problem.validate problem = .error (.shapeMismatch requirement got) →
    Refuses refuses valid plugin problem o (.shapeMismatch requirement got)
  | options {p : Plugin (ι α) α} {err : Error} : p ∈ Problem.plugins σ α → p.name = plugin → valid problem →
    refuses p o err → Refuses refuses valid plugin problem o err

/-- Making a solver gives a function of the data with an answer of the right shape. -/
def IsMade (α : Type) [Scalar α] (name plugin : String) (problem : σ) (o : Options) (s : Nat) : Prop :=
  ∃ (solver : Solver σ ι α) (s' : Nat), (make name plugin problem o).run.run s = (.ok solver, s') ∧
    solver.function.inputs = (Problem.declared α problem s).1.2 ∧
    ∃ y, solver.function.outputs = [(Problem.output σ, y)] ∧ y.shape = Problem.outputShape problem

/-- What the method builds has the shape of the answer and makes a function of the data. -/
def IsBuilt (name : String) (problem : σ) (s : Nat) (build : ι α → Build (Expr α)) : Prop :=
  ((build (Problem.declared α problem s).1.1).run (Problem.declared α problem s).2).1.shape =
      Problem.outputShape problem ∧
    ∃ f, Func.make name (Problem.declared α problem s).1.2 [(Problem.output σ,
      ((build (Problem.declared α problem s).1.1).run (Problem.declared α problem s).2).1)] = .ok f

/-- Making a solver fails with exactly the given errors, and when there are none a solver is made. -/
structure MadeUnless (α : Type) [Scalar α] (name plugin : String) (problem : σ) (o : Options) (s : Nat)
    (refuses : Error → Prop) : Prop where
  refused : ∀ err, (∃ s', (make name plugin problem o : TryBuild (Solver σ ι α)).run.run s = (.error err, s')) ↔
    refuses err
  made : IsMade α name plugin problem o s ↔ ∀ err, ¬ refuses err

theorem run_make_of_not_mem {plugin : String} (h : plugin ∉ (Problem.plugins σ α).map (·.name)) (name : String)
    (problem : σ) (o : Options) (s : Nat) : (make name plugin problem o : TryBuild (Solver σ ι α)).run.run s =
      (.error (.unknownSolver (Problem.kind σ) plugin), s) := by
  unfold make
  rw [Plugin.lookup?_eq_none.2 h]
  rfl

variable {name : String} {problem : σ} {o : Options} {s : Nat} {p : Plugin (ι α) α} {err : Error}
  (hp : Plugin.lookup? (Problem.plugins σ α) p.name = some p)

include hp

theorem run_make_of_validate (h : Problem.validate problem = .error err) :
    (make name p.name problem o : TryBuild (Solver σ ι α)).run.run s = (.error err, s) := by
  unfold make
  rw [hp, h]
  rfl

variable (hvalid : Problem.validate problem = .ok ())

include hvalid

theorem run_make_of_stopsWith (h : p.StopsWith o err) (name : String) (s : Nat) :
    ∃ s', (make name p.name problem o : TryBuild (Solver σ ι α)).run.run s = (.error err, s') := by
  unfold make
  rw [hp]
  dsimp only
  rw [TryBuild.run_bind_ok (TryBuild.run_liftM_ok hvalid s)]
  rcases h with h | ⟨r, h, hbuild⟩
  · rw [h]
    exact ⟨s, rfl⟩
  · have hdeclare : (liftM (Problem.declare problem) : TryBuild (ι α × List (String × Expr α))).run.run s =
        (.ok (Problem.declared α problem s).1, (Problem.declared α problem s).2) := rfl
    rw [TryBuild.run_bind_ok (TryBuild.run_liftM_ok h s), TryBuild.run_bind_ok hdeclare]
    rw [hbuild]
    exact ⟨_, rfl⟩

theorem exists_makes_of_buildsLike {build : ι α → Build (Expr α)} (h : p.BuildsLike o build)
    (hbuilt : IsBuilt name problem s build) :
    ∃ solver : Solver σ ι α, (make name p.name problem o).run.run s =
        (.ok solver, ((build (Problem.declared α problem s).1.1).run (Problem.declared α problem s).2).2) ∧
      solver.function.inputs = (Problem.declared α problem s).1.2 ∧ solver.function.outputs = [(Problem.output σ,
        ((build (Problem.declared α problem s).1.1).run (Problem.declared α problem s).2).1)] := by
  obtain ⟨hshape, f, hf⟩ := hbuilt
  obtain ⟨r, hr, hbuild⟩ := h
  obtain ⟨solver, hrun, rfl⟩ := Problem.Offers.makes ⟨p, r, hp, hr, hbuild⟩ hvalid hshape hf
  obtain ⟨-, hinputs, houtputs⟩ := Func.make_eq_ok hf
  exact ⟨solver, hrun, hinputs, houtputs⟩

omit hp hvalid

/-- If every plugin refuses options or builds like a method, and what methods build makes functions, then
making a solver fails only for the plugin, the shapes or the options. -/
theorem madeUnless {refuses : Plugin (ι α) α → Options → Error → Prop} {valid : σ → Prop}
    (builds : (ι α → Build (Expr α)) → Prop) (hnames : ((Problem.plugins σ α).map (·.name)).Nodup)
    (hvalid : Problem.validate problem = .ok () ↔ valid problem)
    (hshapes : OnlyShapes (Problem.validate problem))
    (hplugins : ∀ p ∈ Problem.plugins σ α, (∀ err, refuses p o err → p.StopsWith o err) ∧
      ((∃ err, refuses p o err) ∨ ∃ build, builds build ∧ p.BuildsLike o build))
    (hmakes : ∀ build, builds build → valid problem → IsBuilt name problem s build)
    (plugin : String) : MadeUnless α name plugin problem o s (Refuses refuses valid plugin problem o) := by
  have hfails (err : Error) (h : Refuses refuses valid plugin problem o err) :
      ∃ s', (make name plugin problem o : TryBuild (Solver σ ι α)).run.run s = (.error err, s') := by
    cases h with
    | unknownSolver h => exact ⟨s, run_make_of_not_mem h name problem o s⟩
    | shapes hknown h =>
      obtain ⟨p, hp, rfl⟩ := List.mem_map.1 hknown
      exact ⟨s, run_make_of_validate (Plugin.lookup?_eq_some hnames hp) h⟩
    | options hp hname hvalid' h =>
      subst hname
      have hstops := (hplugins _ hp).1 _ h
      exact run_make_of_stopsWith (Plugin.lookup?_eq_some hnames hp) (hvalid.2 hvalid') hstops name s
  have hor : (∃ err, Refuses refuses valid plugin problem o err) ∨ IsMade α name plugin problem o s := by
    by_cases hknown : plugin ∈ (Problem.plugins σ α).map (·.name)
    · obtain ⟨p, hp, rfl⟩ := List.mem_map.1 hknown
      cases hv : Problem.validate problem with
      | error err =>
        obtain ⟨requirement, got, rfl⟩ := hshapes err hv
        exact .inl ⟨_, .shapes hknown hv⟩
      | ok =>
        rcases (hplugins p hp).2 with ⟨err, h⟩ | ⟨build, hbuilds, hlike⟩
        · exact .inl ⟨err, .options hp rfl (hvalid.1 hv) h⟩
        · have hbuilt := hmakes build hbuilds (hvalid.1 hv)
          obtain ⟨solver, hrun, hinputs, houtputs⟩ :=
            exists_makes_of_buildsLike (Plugin.lookup?_eq_some hnames hp) hv hlike hbuilt
          exact .inr ⟨solver, _, hrun, hinputs, _, houtputs, hbuilt.1⟩
    · exact .inl ⟨_, .unknownSolver hknown⟩
  refine ⟨fun err => ⟨fun ⟨s', hrun⟩ => ?_, hfails err⟩, ⟨fun ⟨solver, s', hrun, _⟩ err h => ?_,
    fun h => hor.resolve_left fun ⟨err, herr⟩ => h err herr⟩⟩
  · rcases hor with ⟨err', h⟩ | ⟨solver, s'', hmade, -⟩
    · obtain ⟨s'', hrun'⟩ := hfails err' h
      rw [hrun] at hrun'
      cases hrun'
      exact h
    · rw [hrun] at hmade
      cases hmade
  · obtain ⟨s'', hrun'⟩ := hfails err h
    rw [hrun] at hrun'
    cases hrun'

end Solver

/-! ## The two equations -/

/-- Making a solver fails only for an unknown plugin, for shapes that make no sense and for options that the
plugin refuses, in this order. Shapes that make no sense are always refused, with a shape mismatch. In all
other cases it gives a function of the data whose output has the shape of the answer, for any number of steps
and of blocks. -/
theorem Solver.make_refuses (α : Type) [Scalar α] (name plugin : String) (o : Options) (s : Nat) :
    (∀ e : Dle, MadeUnless α name plugin e o s (Refuses (α := α) Dle.Refuses Dle.Valid plugin e o) ∧
      ((∃ requirement got, e.validate = .error (.shapeMismatch requirement got)) ↔ ¬ e.Valid)) ∧
    ∀ e : LowRankDle, MadeUnless α name plugin e o s
        (Refuses (α := α) Plugin.Refuses LowRankDle.Valid plugin e o) ∧
      ((∃ requirement got, e.validate = .error (.shapeMismatch requirement got)) ↔ ¬ e.Valid) := by
  refine ⟨fun e => ⟨?_, Dle.validate_eq_error_iff⟩, fun e => ⟨?_, LowRankDle.validate_eq_error_iff⟩⟩
  · refine madeUnless (fun build => ∃ method, Dle.Builds method build) Dle.names_nodup
      (Dle.validate_eq_ok.trans Dle.valid_iff.symm) e.onlyShapes_validate (fun p hp => ?_)
      (fun build ⟨method, h⟩ he => h.exists_make (Dle.valid_iff.1 he) _ _ s) plugin
    obtain ⟨hstops, hor⟩ := Dle.stopsWith_or hp o
    exact ⟨hstops, hor.imp_right fun ⟨method, build, hbuilds, h⟩ => ⟨build, ⟨method, hbuilds⟩, h⟩⟩
  · refine madeUnless (fun build => ∃ method, LowRankDle.Builds method build) LowRankDle.names_nodup
      LowRankDle.validate_eq_ok e.onlyShapes_validate (fun p hp => ?_)
      (fun build ⟨method, h⟩ he => h.exists_make he _ _ s) plugin
    obtain ⟨hstops, hor⟩ := LowRankDle.stopsWith_or hp o
    exact ⟨hstops, hor.imp_right fun ⟨build, hbuilds, h⟩ => ⟨build, ⟨p.name, hbuilds⟩, h⟩⟩

end Lyapunov
