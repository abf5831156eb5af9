/-
Handing the equation over. The full equation is the low-rank equation without factors; the plugin that takes
it as such makes a solver exactly when the plugin that its options name makes one, and otherwise fails with
the error of that plugin. The two solvers and their derivatives have the same values and fail with the same
errors, whatever the scalars are.
-/
import Lyapunov.Proofs.Solver.Derivatives
import Lyapunov.Proofs.Solver.Renaming

namespace Lyapunov

open Build

/-! ## Functions that coincide -/

/-- The names are equal, but that one may end with the name `p` of an answer where the other one ends with
the name `y`. -/
def SameName (x y : String) : Prop := x = y ∨ ∃ tag, x = tag ++ "p" ∧ y = tag ++ "y"

/-- Names as in `SameName`, for nodes that are numbered one by one from `s` and `s'` on. -/
def Renaming.fromNumbers (s s' : Nat) : Renaming where
  number i j := ∃ k, i = s + k ∧ j = s' + k
  name := SameName
  oneToOne := (Renaming.shift s s').oneToOne
  tagged := by
    rintro tag x y (rfl | ⟨tag', rfl, rfl⟩)
    · exact .inl rfl
    · exact .inr ⟨tag ++ tag', String.append_assoc.symm, String.append_assoc.symm⟩

/-- The functions have inputs and outputs of the same names and shapes, but for the name of the answer, and on
all arguments of these shapes the same values or the same error. -/
structure Func.Coincides {α : Type} [Scalar α] (f f' : Func α) : Prop where
  inputNames : List.Forall₂ SameName f.inputNames f'.inputNames
  outputNames : List.Forall₂ SameName f.outputNames f'.outputNames
  inputShapes : f.inputShapes = f'.inputShapes
  outputShapes : f.outputShapes = f'.outputShapes
  eval : ∀ args : List (Argument α), args.map (·.shape) = f.inputShapes → f.eval args = f'.eval args

theorem Func.Alike.coincides {α : Type} [Scalar α] {ρ : Renaming} {f f' : Func α} {n n' : Nat}
    (h : Alike ρ id f f') (hnames : ∀ {x y}, ρ.name x y → SameName x y) (hf : f.NumberedBelow n)
    (hf' : f'.NumberedBelow n') : f.Coincides f' where
  inputNames := List.rel_map (fun _ _ hpq => hnames hpq.name) h.inputs
  outputNames := List.rel_map (fun _ _ hpq => hnames hpq.name) h.outputs
  inputShapes := h.inputShapes.symm
  outputShapes := h.outputShapes.symm
  eval _ hargs := h.eval_eq hf hf' hargs

/-! ## Solvers that coincide -/

namespace Solver

section

variable {σ σ' : Type} {ι ι' : Type → Type} [Problem σ ι] [Problem σ' ι'] {α : Type} [Scalar α]

/-- For data of the given shapes the solvers give the same answer or fail with the same error; derivatives of
both, made at any time after the solvers, coincide or fail with the same error. -/
structure Coincide (shapes : List Shape) (solver : Solver σ ι α) (r : Nat) (solver' : Solver σ' ι' α) (r' : Nat) :
    Prop where
  inputShapes : solver.function.inputShapes = shapes
  function : solver.function.Coincides solver'.function
  eval : ∀ args : List (Argument α), args.map (·.shape) = shapes → solver.eval args = solver'.eval args
  forward : ∀ k t t', r ≤ t → r' ≤ t' →
    TryBuild.SameOutcome (solver.forward k) t (solver'.forward k) t' fun g _ g' _ => g.Coincides g'
  reverse : ∀ k t t', r ≤ t → r' ≤ t' →
    TryBuild.SameOutcome (solver.reverse k) t (solver'.reverse k) t' fun g _ g' _ => g.Coincides g'

omit [Problem σ ι] [Problem σ' ι'] in
theorem coincide_of_alike {solver : Solver σ ι α} {solver' : Solver σ' ι' α} {r r' s s' : Nat}
    (h : Func.Alike (.fromNumbers s s') id solver.function solver'.function)
    (hf : solver.function.NumberedBelow r) (hf' : solver'.function.NumberedBelow r')
    (hnames : ∀ mode, solver.function.Untagged mode) (hnames' : ∀ mode, solver'.function.Untagged mode) :
    Coincide solver.function.inputShapes solver r solver' r' := by
  have hcoincides := h.coincides (fun h => h) hf hf'
  have hderivative (mode : Mode) (k t t' : Nat) (ht : r ≤ t) (ht' : r' ≤ t') :
      TryBuild.SameOutcome (solver.function.differentiate mode k) t (solver'.function.differentiate mode k) t'
        fun g _ g' _ => g.Coincides g' :=
    (h.differentiate rfl hf hf' (hnames mode) (hnames' mode) k ht ht').imp fun g _ g' _ _ _ ⟨hg, hg', hgg'⟩ =>
      hgg'.coincides (fun h => h) hg hg'
  refine ⟨rfl, hcoincides, fun args hargs => ?_, hderivative .forward, hderivative .reverse⟩
  rw [Solver.eval, Solver.eval, hcoincides.eval args hargs]

end

end Solver

/-! ## Options that name a method -/

namespace LowRankMethod

/-- The options that name a method for the low-rank equation and give options for it. -/
def handingTo (method : String) (inner : Options) (posDef : Option Bool) : Options where
  entries := ("lr_dle_solver", .str method) :: ("lr_dle_solver_options", inner.toValue) ::
    posDef.toList.map fun b => ("pos_def", .bool b)
  increasing := by
    refine (List.pairwise_map (f := Prod.fst) (R := (· < ·))).1 ?_
    cases posDef with
    | none =>
      show ["lr_dle_solver", "lr_dle_solver_options"].Pairwise (· < ·)
      decide
    | some b =>
      show ["lr_dle_solver", "lr_dle_solver_options", "pos_def"].Pairwise (· < ·)
      decide

variable {α : Type} [Scalar α] (method : String) (inner : Options) (posDef : Option Bool)

/-- The options resolve, whatever method they name. -/
theorem exists_resolve_handingTo : ∃ r, (handingTo method inner posDef).resolve (dlePlugin α).schemas = .ok r ∧
    methodName r = method ∧ innerOptions r = inner := by
  have hcheck : ∀ entry ∈ (handingTo method inner posDef).entries,
      Options.checkEntry (dlePlugin α).schemas.flatten entry = .ok () := by
    refine List.forall_mem_cons.2 ⟨rfl, List.forall_mem_cons.2 ⟨rfl, List.forall_mem_map.2 fun b _ => rfl⟩⟩
  obtain ⟨hmethod, hinner⟩ := methodName_of_resolve (Options.resolve_eq_ok.2 ⟨hcheck, rfl⟩)
  refine ⟨_, Options.resolve_eq_ok.2 ⟨hcheck, rfl⟩, hmethod.trans rfl, hinner.trans ?_⟩
  exact congrArg (Option.getD · Options.empty) inner.asDict?_toValue

section

variable {inner : Options} {q : Plugin (LowRankInputs α) α} (hq : q ∈ LowRankDle.plugins α)
  (posDef : Option Bool)

include hq

theorem stopsWith_handingTo {err : Error} (h : q.StopsWith inner err) :
    (dlePlugin α).StopsWith (handingTo q.name inner posDef) err := by
  obtain ⟨r, hr, hmethod, hinner⟩ := exists_resolve_handingTo (α := α) q.name inner posDef
  exact .inr ⟨r, hr, build_of_stopsWith hq hmethod.symm (hinner.symm ▸ h)⟩

theorem buildsLike_handingTo {method : LowRankInputs α → Build (Expr α)} (h : q.BuildsLike inner method) :
    (dlePlugin α).BuildsLike (handingTo q.name inner posDef) fun i => method { a := i.a, v := i.v } := by
  obtain ⟨r, hr, hmethod, hinner⟩ := exists_resolve_handingTo (α := α) q.name inner posDef
  exact ⟨r, hr, build_of_buildsLike hq hmethod.symm (hinner.symm ▸ h)⟩

end

end LowRankMethod

/-! ## The direct method -/

namespace Kronecker

variable {α : Type} [Scalar α] {o : Options}

/-- For the full equation the direct method builds what it builds for the low-rank one without factors. -/
theorem build_dlePlugin (i : DleInputs α) (r : Options) :
    (dlePlugin α).build i r = (lowRankPlugin α).build { a := i.a, v := i.v } r := rfl

theorem stopsWith_dlePlugin {err : Error} (h : (lowRankPlugin α).StopsWith o err) :
    (dlePlugin α).StopsWith o err := by
  refine h.imp_right fun ⟨r, hr, hbuild⟩ => ⟨r, hr, fun i => ?_⟩
  rw [build_dlePlugin, hbuild]

theorem buildsLike_dlePlugin {method : LowRankInputs α → Build (Expr α)}
    (h : (lowRankPlugin α).BuildsLike o method) :
    (dlePlugin α).BuildsLike o fun i => method { a := i.a, v := i.v } := by
  obtain ⟨r, hr, hbuild⟩ := h
  refine ⟨r, hr, fun i => ?_⟩
  rw [build_dlePlugin, hbuild]

end Kronecker

/-! ## The solvers -/

namespace Solver

variable {α : Type} [Scalar α] {e : Dle} {inner : Options} {name name' : String} {s s' : Nat}

section

variable {σ : Type} {ι : Type → Type} [Problem σ ι] {problem : σ}

/-- Equations whose data are matrices of the same shapes, `A` and `V`, are built alike. -/
theorem buildAlike_of_declare {method : String} {build : LowRankInputs α → Build (Expr α)}
    (h : LowRankDle.Builds method build) (data : Expr α → Expr α → ι α)
    (hdeclare : Problem.declare problem = do
      let a ← Expr.newSymbol "A" e.a
      let v ← Expr.newSymbol "V" e.v
      return (data a v, [("a", a), ("v", v)]))
    {build' : ι α → Build (Expr α)} (hbuild : ∀ a v, build' (data a v) = build { a, v }) :
    BuildAlike e (fun i : DleInputs α => build { a := i.a, v := i.v }) problem build' := by
  intro ρ hname
  have hsymbols : Parallel ρ (Problem.declare e) (Problem.declare problem) fun c d => ∃ a v a' v',
      Expr.Alike ρ id a a' ∧ Expr.Alike ρ id v v' ∧ c = (⟨a, v⟩, [("a", a), ("v", v)]) ∧
        d = (data a' v', [("a", a'), ("v", v')]) := by
    have hnew (x : String) (shape : Shape) :
        Build.Alike ρ id (Expr.newSymbol x shape : Build (Expr α)) (Expr.newSymbol x shape) :=
      alike_newSymbol (hname x) shape
    rw [hdeclare]
    show Parallel ρ (Dle.declare e) _ _
    refine parallel_bind (hnew "A" e.a) fun a a' ha => ?_
    refine parallel_bind (hnew "V" e.v) fun v v' hv => ?_
    exact parallel_pure ⟨a, v, a', v', ha, hv, rfl, rfl⟩
  refine parallel_bind hsymbols ?_
  rintro _ _ ⟨a, v, a', v', ha, hv, rfl, rfl⟩
  rw [hbuild]
  refine parallel_bind (h.alike ⟨ha, hv, .none, .none, rfl⟩) fun y y' hy => ?_
  exact parallel_pure ⟨.cons ⟨hname "a", ha⟩ (.cons ⟨hname "v", hv⟩ .nil), hy⟩

end

theorem lookup_lrdle : Plugin.lookup? (Problem.plugins Dle α) "lrdle" = some (LowRankMethod.dlePlugin α) :=
  Plugin.lookup?_eq_some (p := LowRankMethod.dlePlugin α) Dle.names_nodup
    (show _ ∈ Dle.plugins α by simp [Dle.plugins])

section

variable (he : e.validate = .ok ())

include he

/-- A solver that hands the equation over is made in step with one of another plugin, if that plugin stops
with what the plugin `q` that the options name stops with, and else builds like `q`. -/
theorem sameOutcome_handingTo {q : Plugin (LowRankInputs α) α} (hq : q ∈ LowRankDle.plugins α) {σ : Type}
    {ι : Type → Type} [Problem σ ι] {problem : σ} {p : Plugin (ι α) α}
    (hp : Plugin.lookup? (Problem.plugins σ α) p.name = some p) (hvalid : Problem.validate problem = .ok ())
    (houtput : SameName (Problem.output Dle) (Problem.output σ))
    (hstops : ∀ err, q.StopsWith inner err → p.StopsWith inner err)
    (hbuilds : ∀ build, LowRankDle.Builds q.name build → q.BuildsLike inner build →
      ∃ build', p.BuildsLike inner build' ∧ IsBuilt name' problem s' build' ∧
        BuildAlike e (fun i : DleInputs α => build { a := i.a, v := i.v }) problem build') (posDef : Option Bool) :
    TryBuild.SameOutcome
      (make name "lrdle" e (LowRankMethod.handingTo q.name inner posDef) : TryBuild (Solver Dle DleInputs α)) s
      (make name' p.name problem inner : TryBuild (Solver σ ι α)) s' fun solver _ solver' _ =>
        Func.Alike (.fromNumbers s s') id solver.function solver'.function := by
  refine sameOutcome_make (p := LowRankMethod.dlePlugin α) (fun _ => .inl rfl) (fun k => ⟨k, rfl, rfl⟩) houtput
    lookup_lrdle hp he hvalid ?_
  obtain ⟨hrefuses, ⟨err, herr⟩ | ⟨build, hbuild, hlike⟩⟩ := LowRankDle.stopsWith_or hq inner
  · have hstop := hrefuses err herr
    exact .inl ⟨err, LowRankMethod.stopsWith_handingTo hq posDef hstop, hstops err hstop⟩
  · obtain ⟨build', hlike', hbuilt', halike⟩ := hbuilds build hbuild hlike
    exact .inr ⟨_, build', LowRankMethod.buildsLike_handingTo hq posDef hlike, hlike',
      (Dle.Builds.handedOver hbuild).exists_make (Dle.validate_eq_ok.1 he) _ _ s, hbuilt', halike⟩

/-- A solver that hands the equation over is made in step with one of the plugin that the options name. -/
theorem sameOutcome_lowRank {q : Plugin (LowRankInputs α) α} (hq : q ∈ LowRankDle.plugins α)
    (posDef : Option Bool) : TryBuild.SameOutcome
    (make name "lrdle" e (LowRankMethod.handingTo q.name inner posDef) : TryBuild (Solver Dle DleInputs α)) s
    (make name' q.name ({ a := e.a, v := e.v } : LowRankDle) inner :
      TryBuild (Solver LowRankDle LowRankInputs α)) s' (Coincide [e.a, e.v]) := by
  have hvalid := Dle.valid_lowRank (Dle.validate_eq_ok.1 he)
  refine (sameOutcome_handingTo (p := q) he hq (Plugin.lookup?_eq_some LowRankDle.names_nodup hq)
    (LowRankDle.validate_eq_ok.2 hvalid) (.inr ⟨"", rfl, rfl⟩) (fun _ h => h)
    (fun build h hlike => ⟨build, hlike, h.exists_make hvalid _ _ s',
      buildAlike_of_declare h (fun a v => { a, v }) rfl fun _ _ => rfl⟩) posDef).imp
    fun solver r solver' r' hrun hrun' halike => ?_
  have hsound := Dle.sound hrun
  have hsound' := LowRankDle.sound hrun'
  rw [← inputShapes_dle hsound]
  exact coincide_of_alike halike hsound.numbered hsound'.numbered (untagged_dle hsound) (untagged_lowRank hsound')

/-- The plugin for the full equation that uses the direct method is in step with handing the equation over to
the direct method. -/
theorem sameOutcome_simple (posDef : Option Bool) : TryBuild.SameOutcome
    (make name "lrdle" e (LowRankMethod.handingTo "simple" inner posDef) : TryBuild (Solver Dle DleInputs α)) s
    (make name' "simple" e inner : TryBuild (Solver Dle DleInputs α)) s' (Coincide [e.a, e.v]) := by
  have hsquare := Dle.validate_eq_ok.1 he
  have hq : Kronecker.lowRankPlugin α ∈ LowRankDle.plugins α := by simp [LowRankDle.plugins]
  have hp : Plugin.lookup? (Problem.plugins Dle α) "simple" = some (Kronecker.dlePlugin α) :=
    Plugin.lookup?_eq_some (p := Kronecker.dlePlugin α) Dle.names_nodup
      (show _ ∈ Dle.plugins α by simp [Dle.plugins])
  refine (sameOutcome_handingTo (q := Kronecker.lowRankPlugin α) (p := Kronecker.dlePlugin α) he hq hp he
    (.inl rfl) (fun _ => Kronecker.stopsWith_dlePlugin)
    (fun build h hlike => ⟨_, Kronecker.buildsLike_dlePlugin hlike,
      (Dle.Builds.handedOver h).exists_make hsquare _ _ s',
      buildAlike_of_declare h (fun a v => ⟨a, v⟩) rfl fun _ _ => rfl⟩) posDef).imp
    fun solver r solver' r' hrun hrun' halike => ?_
  have hsound := Dle.sound hrun
  have hsound' := Dle.sound hrun'
  rw [← inputShapes_dle hsound]
  exact coincide_of_alike halike hsound.numbered hsound'.numbered (untagged_dle hsound) (untagged_dle hsound')

end

/-- For shapes that make sense, a solver that hands the equation over is made exactly when one of the method
that its options name is made for the low-rank equation without factors, with the options given for it, and
otherwise it fails with the same error; its own assumption of a positive definite solution makes no
difference. The two solvers coincide whatever the scalars are, and so do their derivatives. With the direct
method they coincide with the solver for the full equation that uses the direct method. -/
theorem make_lrdle (α : Type) [Scalar α] (e : Dle) (he : e.validate = .ok ()) (name name' : String)
    (inner : Options) (posDef : Option Bool) (s s' : Nat) :
    (∀ method : String, TryBuild.SameOutcome
      (make name "lrdle" e (LowRankMethod.handingTo method inner posDef) : TryBuild (Solver Dle DleInputs α)) s
      (make name' method ({ a := e.a, v := e.v } : LowRankDle) inner :
        TryBuild (Solver LowRankDle LowRankInputs α)) s' (Coincide [e.a, e.v])) ∧
    TryBuild.SameOutcome
      (make name "lrdle" e (LowRankMethod.handingTo "simple" inner posDef) : TryBuild (Solver Dle DleInputs α)) s
      (make name' "simple" e inner : TryBuild (Solver Dle DleInputs α)) s' (Coincide [e.a, e.v]) := by
  refine ⟨fun method => ?_, sameOutcome_simple he posDef⟩
  by_cases hknown : method ∈ (LowRankDle.plugins α).map (·.name)
  · obtain ⟨q, hq, rfl⟩ := List.mem_map.1 hknown
    exact sameOutcome_lowRank he hq posDef
  · -- both look the method up in the same list
    obtain ⟨r, hr, hmethod, -⟩ := LowRankMethod.exists_resolve_handingTo (α := α) method inner posDef
    obtain ⟨s₁, hrun⟩ := run_make_of_stopsWith lookup_lrdle he
      (.inr ⟨r, hr, LowRankMethod.build_of_not_mem (hmethod.symm ▸ hknown)⟩) name s
    rw [hmethod] at hrun
    exact .inl ⟨_, s₁, s', hrun, run_make_of_not_mem hknown name' _ inner s'⟩

/-- For numbers the equation is handed over to the direct method, though the plugin that hands it over is told
to assume a positive definite solution. -/
theorem make_lrdle_simple : (Dle.square 1).validate = .ok () ∧
    ∃ (solver solver' : Solver Dle DleInputs ℚ) (r r' : Nat),
      (make "f" "lrdle" (Dle.square 1) (LowRankMethod.handingTo "simple" .empty (some true))).run.run 0 =
        (.ok solver, r) ∧
      (make "g" "simple" (Dle.square 1) .empty).run.run r = (.ok solver', r') ∧
      Coincide [.square 1, .square 1] solver r solver' r' := by
  refine ⟨rfl, ?_⟩
  obtain ⟨r, hrun⟩ : ∃ r, ((make "f" "lrdle" (Dle.square 1) (LowRankMethod.handingTo "simple" .empty
    (some true)) : TryBuild (Solver Dle DleInputs ℚ)).run.run 0).2 = r := ⟨_, rfl⟩
  obtain ⟨_, _, hmake⟩ := exists_make_dle (α := ℚ) 1 "g" r
  rcases (make_lrdle ℚ (Dle.square 1) rfl "f" "g" .empty (some true) 0 r).2 with
    ⟨err, _, _, -, herr⟩ | ⟨solver, solver', r₁, r', hsolver, hsolver', hcoincide⟩
  · rw [hmake] at herr
    cases herr
  · rw [hsolver] at hrun
    cases hrun
    exact ⟨solver, solver', _, r', hsolver, hsolver', hcoincide⟩

end Solver

end Lyapunov
