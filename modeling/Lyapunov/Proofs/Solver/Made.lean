/-
Solvers that were made. With whatever plugin and options a solver is made, the output of its function is
built by one of four methods; over any scalars the nodes of the function have every property that the
operations of the method keep.
-/
import Lyapunov.Proofs.Expr.Shape
import Lyapunov.Proofs.Solver.Equations

namespace Lyapunov

open Build Lyapunov.Dense

namespace TryBuild

variable {β γ : Type} {n n' : Nat}

/-- What does not create nodes may fail. -/
theorem run_check_bind_eq_ok {x : Except Error β} {k : β → TryBuild γ} {c : γ} :
    ((liftM x : TryBuild β) >>= k).run.run n = (.ok c, n') ↔
      ∃ b, x = .ok b ∧ (k b).run.run n = (.ok c, n') := by
  cases x with
  | error e =>
    constructor
    · intro h
      cases h
    · rintro ⟨_, h, -⟩
      cases h
  | ok b =>
    rw [run_bind_ok (run_liftM_ok rfl n)]
    constructor
    · intro h
      exact ⟨b, rfl, h⟩
    · rintro ⟨_, h, hk⟩
      cases h
      exact hk

/-- What creates nodes does not fail. -/
theorem run_build_eq_ok {m : Build β} {b : β} :
    (liftM m : TryBuild β).run.run n = (.ok b, n') ↔ m.run n = (b, n') := by
  rw [run_liftM_build, Prod.mk.injEq, Except.ok.injEq]
  exact Prod.mk.injEq _ _ _ _ ▸ Iff.rfl

end TryBuild

/-! ## Making a solver -/

section

variable {σ : Type} {ι : Type → Type} [Problem σ ι] {α : Type} [Scalar α]

/-- The output is built by `build`, from symbols for the data that are numbered from `s` on; the nodes are
numbered below `s'`. -/
structure Solver.MadeBy (solver : Solver σ ι α) (problem : σ) (build : ι α → Build (Expr α)) (s s' : Nat) :
    Prop where
  valid : Problem.validate problem = .ok ()
  of : solver.problem = problem
  make : ∃ y, (build (Problem.declared α problem s).1.1).run (Problem.declared α problem s).2 = (y, s') ∧
    y.shape = Problem.outputShape problem ∧
    Func.make solver.name (Problem.declared α problem s).1.2 [(Problem.output σ, y)] = .ok solver.function

variable {name plugin : String} {problem : σ} {o : Options} {s s' : Nat} {solver : Solver σ ι α}

/-- The steps that making a solver takes, and what the solver remembers of them. -/
theorem Solver.run_make_eq_ok (h : (Solver.make name plugin problem o).run.run s = (.ok solver, s')) :
    ∃ p r y f, Plugin.lookup? (Problem.plugins σ α) plugin = some p ∧ Problem.validate problem = .ok () ∧
      o.resolve p.schemas = .ok r ∧
      (p.build (Problem.declared α problem s).1.1 r).run.run (Problem.declared α problem s).2 = (.ok y, s') ∧
      y.shape = Problem.outputShape problem ∧
      Func.make name (Problem.declared α problem s).1.2 [(Problem.output σ, y)] = .ok f ∧
      solver = ⟨name, p, problem, o, r, f⟩ := by
  unfold Solver.make at h
  cases hlookup : Plugin.lookup? (Problem.plugins σ α) plugin with
  | none =>
    rw [hlookup] at h
    cases h
  | some p =>
    rw [hlookup] at h
    dsimp only at h
    obtain ⟨⟨⟩, hvalid, h⟩ := TryBuild.run_check_bind_eq_ok.1 h
    obtain ⟨r, hresolve, h⟩ := TryBuild.run_check_bind_eq_ok.1 h
    obtain ⟨inputs, n, hdeclare, h⟩ := TryBuild.run_bind_eq_ok.1 h
    obtain ⟨y, n', hbuild, h⟩ := TryBuild.run_bind_eq_ok.1 h
    obtain ⟨⟨⟩, hshape, h⟩ := TryBuild.run_check_bind_eq_ok.1 h
    obtain ⟨f, hmake, h⟩ := TryBuild.run_check_bind_eq_ok.1 h
    have hdeclared : Problem.declared α problem s = (inputs, n) := TryBuild.run_build_eq_ok.1 hdeclare
    rw [hdeclared]
    cases h
    exact ⟨p, r, y, f, rfl, hvalid, hresolve, hbuild, beq_iff_eq.1 (Shape.require_eq_ok.1 hshape), hmake, rfl⟩

/-- What it takes for a solver to be made. -/
theorem Solver.make_eq_ok (h : (Solver.make name plugin problem o).run.run s = (.ok solver, s')) :
    ∃ p ∈ Problem.plugins σ α, ∃ r y, p.name = plugin ∧ solver.plugin = p ∧ solver.options = r ∧
      (p.build (Problem.declared α problem s).1.1 r).run.run (Problem.declared α problem s).2 = (.ok y, s') ∧
      ∀ build : ι α → Build (Expr α),
        (build (Problem.declared α problem s).1.1).run (Problem.declared α problem s).2 = (y, s') →
          solver.MadeBy problem build s s' := by
  obtain ⟨p, r, y, f, hlookup, hvalid, -, hbuild, hshape, hmake, rfl⟩ := run_make_eq_ok h
  unfold Plugin.lookup? at hlookup
  have hname := List.find?_some hlookup
  exact ⟨p, List.mem_of_find?_eq_some hlookup, r, y, beq_iff_eq.1 hname, rfl, rfl, hbuild,
    fun build hy => ⟨hvalid, rfl, y, hy, hshape, hmake⟩⟩

/-- The plugin of the solver is the one that was asked for. -/
theorem Solver.plugin_name_eq (h : (Solver.make name plugin problem o).run.run s = (.ok solver, s')) :
    solver.plugin.name = plugin := by
  obtain ⟨p, -, _, _, hname, rfl, -⟩ := make_eq_ok h
  exact hname

end

/-! ## The methods of plugins -/

/-- The method for the low-rank equation that options name. -/
def LowRankMethod.methodName (o : Options) : String :=
  ((o.get? "lr_dle_solver").bind (·.asStr?)).getD "fixed_smith"

/-- The name of the method that a solver uses: that of its plugin, or the one that its options name where
the plugin hands the equation over. -/
def Solver.methodName {σ : Type} {ι : Type → Type} {α : Type} (solver : Solver σ ι α) : String :=
  if solver.plugin.name = "lrdle" then LowRankMethod.methodName solver.options else solver.plugin.name

theorem Solver.methodName_eq {σ : Type} {ι : Type → Type} {α : Type} {solver : Solver σ ι α}
    {plugin : String} (h : solver.plugin.name = plugin) (hne : plugin ≠ "lrdle") :
    solver.methodName = plugin := by
  rw [methodName, h, if_neg hne]

section

variable {α : Type} [Scalar α]

/-- The methods for the low-rank equation under their names. -/
inductive LowRankDle.Builds : String → (LowRankInputs α → Build (Expr α)) → Prop
  | smith (k : Nat) : Builds "fixed_smith" fun i => Smith.lowRank i k
  | direct : Builds "simple" fun i => Kronecker.lowRank i

/-- The methods for the full equation under their names. -/
inductive Dle.Builds : String → (DleInputs α → Build (Expr α)) → Prop
  | smith (settings : Smith.Settings) : Builds "fixed_smith" fun i => Smith.dle i.a i.v settings
  | direct : Builds "simple" fun i => Kronecker.dle i.a i.v
  | handedOver {method : String} {build : LowRankInputs α → Build (Expr α)} :
    LowRankDle.Builds method build → Builds method fun i => build { a := i.a, v := i.v }

/-- A plugin for the low-rank equation builds like the method of its name. -/
theorem LowRankDle.builds_of_plugin {p : Plugin (LowRankInputs α) α} (hp : p ∈ LowRankDle.plugins α)
    {i : LowRankInputs α} {r : Options} {y : Expr α} {n n' : Nat}
    (h : (p.build i r).run.run n = (.ok y, n')) :
    ∃ build, Builds p.name build ∧ (build i).run n = (y, n') ∧ p.name ≠ "lrdle" := by
  simp only [LowRankDle.plugins, List.mem_cons, List.not_mem_nil, or_false] at hp
  rcases hp with rfl | rfl
  · obtain ⟨⟨⟩, -, h⟩ := TryBuild.run_check_bind_eq_ok.1 h
    obtain ⟨settings, -, h⟩ := TryBuild.run_check_bind_eq_ok.1 h
    exact ⟨_, .smith settings.iter, TryBuild.run_build_eq_ok.1 h, by simp [Smith.lowRankPlugin]⟩
  · obtain ⟨⟨⟩, -, h⟩ := TryBuild.run_check_bind_eq_ok.1 h
    exact ⟨_, .direct, TryBuild.run_build_eq_ok.1 h, by simp [Kronecker.lowRankPlugin]⟩

/-- The plugin that hands the equation over builds like the one that the options name. -/
theorem LowRankMethod.build_eq_ok {i : DleInputs α} {r : Options} {y : Expr α} {n n' : Nat}
    (h : (LowRankMethod.build α i r).run.run n = (.ok y, n')) :
    ∃ p ∈ LowRankDle.plugins α, p.name = methodName r ∧
      ∃ inner, (p.build { a := i.a, v := i.v } inner).run.run n = (.ok y, n') := by
  unfold LowRankMethod.build at h
  rw [← methodName] at h
  cases hlookup : Plugin.lookup? (LowRankDle.plugins α) (methodName r) with
  | none =>
    simp only [hlookup] at h
    cases h
  | some p =>
    simp only [hlookup] at h
    obtain ⟨inner, -, h⟩ := TryBuild.run_check_bind_eq_ok.1 h
    unfold Plugin.lookup? at hlookup
    have hname := List.find?_some hlookup
    exact ⟨p, List.mem_of_find?_eq_some hlookup, beq_iff_eq.1 hname, inner, h⟩

variable {name plugin : String} {o : Options} {s s' : Nat}

/-- A solver for the low-rank equation is made by the method of its name. -/
theorem LowRankDle.exists_madeBy {e : LowRankDle} {solver : Solver LowRankDle LowRankInputs α}
    (h : (Solver.make name plugin e o).run.run s = (.ok solver, s')) :
    ∃ build, Builds solver.methodName build ∧ solver.MadeBy e build s s' := by
  obtain ⟨p, hp, r, y, -, hplugin, -, hbuild, hmade⟩ := Solver.make_eq_ok h
  obtain ⟨build, hbuilds, hrun, hne⟩ := builds_of_plugin hp hbuild
  refine ⟨build, ?_, hmade build hrun⟩
  rwa [Solver.methodName, hplugin, if_neg hne]

/-- A solver for the full equation is made by the method of its name. -/
theorem Dle.exists_madeBy {e : Dle} {solver : Solver Dle DleInputs α}
    (h : (Solver.make name plugin e o).run.run s = (.ok solver, s')) :
    ∃ build, Builds solver.methodName build ∧ solver.MadeBy e build s s' := by
  obtain ⟨p, hp, r, y, -, hplugin, hoptions, hbuild, hmade⟩ := Solver.make_eq_ok h
  suffices ∃ build, Builds solver.methodName build ∧
      (build (Problem.declared α e s).1.1).run (Problem.declared α e s).2 = (y, s') by
    obtain ⟨build, hbuilds, hrun⟩ := this
    exact ⟨build, hbuilds, hmade build hrun⟩
  rw [Solver.methodName, hplugin, hoptions]
  have hp : p ∈ Dle.plugins α := hp
  simp only [Dle.plugins, List.mem_cons, List.not_mem_nil, or_false] at hp
  rcases hp with rfl | rfl | rfl
  · obtain ⟨⟨⟩, -, h⟩ := TryBuild.run_check_bind_eq_ok.1 hbuild
    obtain ⟨settings, -, h⟩ := TryBuild.run_check_bind_eq_ok.1 h
    exact ⟨_, .smith settings, TryBuild.run_build_eq_ok.1 h⟩
  · -- the plugin hands the equation over to the one that the options name
    obtain ⟨q, hq, hname, inner, h⟩ := LowRankMethod.build_eq_ok hbuild
    obtain ⟨build, hbuilds, hrun, -⟩ := LowRankDle.builds_of_plugin hq h
    rw [hname] at hbuilds
    exact ⟨_, .handedOver hbuilds, hrun⟩
  · obtain ⟨⟨⟩, -, h⟩ := TryBuild.run_check_bind_eq_ok.1 hbuild
    exact ⟨_, .direct, TryBuild.run_build_eq_ok.1 h⟩

/-! ## What is built -/

/-- Below the node there is one that solves a system, for `n` rows of `A`. -/
def Expr.HasSystem (n : Nat) (P : Expr α → Prop) (y : Expr α) : Prop :=
  ∃ A W : Matrix (Fin n) (Fin n) Unit, y.Solves (ShapedWith P) A W

variable {P : Expr α → Prop} (hP : Expr.Kept P) {n : Nat} {method : String}
  (hsystem : method = "simple" → Expr.KeptBySystem n P)

include hP hsystem

theorem LowRankDle.Builds.grows {build : LowRankInputs α → Build (Expr α)}
    (h : LowRankDle.Builds method build) {S : Set (Expr α)} {i : LowRankInputs α}
    {A : Matrix (Fin n) (Fin n) Unit} {v : Dense Unit} {c H : Option (Dense Unit)}
    (hi : i.ReadAs (Expr.ShapedWith P) S A v c H) (hne : i.h ≠ none → i.hBlocks ≠ []) :
    Grows (Readable (Expr.ShapedWith P)) S (build i) fun S' y =>
      y ∈ S' ∧ y.shape = .square (H.elim n fun _ => i.hBlocks.sum) ∧
        (method = "simple" → y.HasSystem n P) := by
  have hshape {Q : Matrix (Fin n) (Fin n) Unit} {S' : Set (Expr α)} {y : Expr α}
      (hy : Reads (Expr.ShapedWith P) (answer H i.hBlocks Q) S' y) :=
    hy.reads.shape.trans (shape_answer H i.hBlocks Q)
  cases h with
  | smith k =>
    exact (hP.reading.grows_smithLowRank hi k).imp fun S' y _ hy =>
      ⟨hy.mem, hshape hy, fun h => absurd h (by decide)⟩
  | direct =>
    exact (hP.reading.grows_kroneckerLowRank hi hne ((hsystem rfl).solvesAs A _ 0)).imp fun S' y _ hy =>
      ⟨hy.1.mem, hshape hy.1, fun _ => ⟨A, _, hy.2⟩⟩

theorem Dle.Builds.grows {build : DleInputs α → Build (Expr α)} (h : Dle.Builds method build)
    (A V : Matrix (Fin n) (Fin n) Unit) :
    Dle.GrowsFrom (Expr.ShapedWith P) A V build fun S' y =>
      y ∈ S' ∧ y.shape = .square n ∧ (method = "simple" → y.HasSystem n P) := by
  intro S i ha hv
  cases h with
  | smith settings =>
    exact (hP.reading.grows_smithDle ha hv settings).imp fun S' y _ hy =>
      ⟨hy.mem, hy.reads.shape, fun h => absurd h (by decide)⟩
  | direct =>
    exact (hP.reading.grows_kroneckerDle ((hsystem rfl).solvesAs A _ 0) ha hv).imp fun S' y _ hy =>
      ⟨hy.1.mem, hy.1.reads.shape, fun _ => ⟨A, _, hy.2⟩⟩
  | handedOver h =>
    have hi : LowRankInputs.ReadAs (Expr.ShapedWith P) S { a := i.a, v := i.v } A (ofMatrix V) none none :=
      ⟨ha, hv, .none, .none, rfl, by simp, by simp⟩
    exact h.grows hP hsystem hi (absurd rfl)

omit hP hsystem

theorem LowRankDle.Builds.returns_below_kron {build : LowRankInputs α → Build (Expr α)}
    (h : LowRankDle.Builds method build) (hdirect : method = "simple") {i : LowRankInputs α}
    (hne : i.h ≠ none → i.hBlocks ≠ []) :
    (build i).Returns fun y => ∃ j, Expr.Below (.binary j .kron i.a i.a) y := by
  cases h with
  | smith k => exact absurd hdirect (by decide)
  | direct => exact Kronecker.returns_below_lowRank hne

theorem Dle.Builds.returns_below_kron {build : DleInputs α → Build (Expr α)} (h : Dle.Builds method build)
    (hdirect : method = "simple") (i : DleInputs α) :
    (build i).Returns fun y => ∃ j, Expr.Below (.binary j .kron i.a i.a) y := by
  cases h with
  | smith settings => exact absurd hdirect (by decide)
  | direct => exact Kronecker.returns_below_dle i.a i.v
  | handedOver h => exact h.returns_below_kron hdirect (absurd rfl)

theorem LowRankDle.Builds.method_eq {build : LowRankInputs α → Build (Expr α)}
    (h : LowRankDle.Builds method build) : method = "fixed_smith" ∨ method = "simple" := by
  cases h with
  | smith k => exact .inl rfl
  | direct => exact .inr rfl

theorem Dle.Builds.method_eq {build : DleInputs α → Build (Expr α)} (h : Dle.Builds method build) :
    method = "fixed_smith" ∨ method = "simple" := by
  cases h with
  | smith settings => exact .inl rfl
  | direct => exact .inr rfl
  | handedOver h => exact h.method_eq

end

/-! ## Functions -/

section

variable {σ : Type} {ι : Type → Type} [Problem σ ι] {α : Type} [Scalar α]

/-- What is known of a solver that was made, for `n` rows of `A`. -/
structure Solver.Sound (solver : Solver σ ι α) (problem : σ) (n s s' : Nat) : Prop where
  of : solver.problem = problem
  inputs : solver.function.inputs = (Problem.declared α problem s).1.2
  method : solver.methodName = "fixed_smith" ∨ solver.methodName = "simple"
  numbered : solver.function.NumberedBelow s'
  output : ∃ y, solver.function.outputs = [(Problem.output σ, y)] ∧ y.shape = Problem.outputShape problem
  /-- The nodes have every property that the operations keep. -/
  nodes : ∀ {P : Expr α → Prop}, Expr.Kept P → (solver.methodName = "simple" → Expr.KeptBySystem n P) →
    (∀ e ∈ nodesOf solver.function.inputs, P e) → (∀ e ∈ solver.function.nodes, P e) ∧
      (solver.methodName = "simple" → ∀ y ∈ solver.function.outputs, y.2.HasSystem n P)
  /-- The output depends on the Kronecker square of `A`. -/
  kron : solver.methodName = "simple" → ∀ y ∈ solver.function.outputs, ∃ i, ∃ p ∈ solver.function.inputs,
    p.2.shape = .square n ∧ Expr.Below (.binary i .kron p.2 p.2) y.2

omit [Scalar α] in
theorem Solver.MadeBy.sound {solver : Solver σ ι α} {problem : σ} {build : ι α → Build (Expr α)}
    {s s' n : Nat} (h : solver.MadeBy problem build s s')
    (hdeclared : Declared (Problem.declared α problem s).1.2 (Problem.declared α problem s).2)
    (hmethod : solver.methodName = "fixed_smith" ∨ solver.methodName = "simple")
    (hgrows : ∀ {P : Expr α → Prop}, Expr.Kept P → (solver.methodName = "simple" → Expr.KeptBySystem n P) →
      (∀ e ∈ nodesOf (Problem.declared α problem s).1.2, P e) →
        Grows (Readable (Expr.ShapedWith P)) (nodesOf (Problem.declared α problem s).1.2)
          (build (Problem.declared α problem s).1.1) fun S y =>
            y ∈ S ∧ (solver.methodName = "simple" → y.HasSystem n P))
    (hkron : solver.methodName = "simple" → (build (Problem.declared α problem s).1.1).Returns fun y =>
      ∃ i, ∃ p ∈ (Problem.declared α problem s).1.2,
        p.2.shape = .square n ∧ Expr.Below (.binary i .kron p.2 p.2) y) : solver.Sound problem n s s' := by
  obtain ⟨-, rfl, y, hy, hshape, hmake⟩ := h
  obtain ⟨-, hinputs, houtputs⟩ := Func.make_eq_ok hmake
  have hresult : ((build (Problem.declared α solver.problem s).1.1).run
    (Problem.declared α solver.problem s).2).1 = y := by rw [hy]
  rw [← hresult] at hmake
  have hbuilt {P : Expr α → Prop} (hP : Expr.Kept P)
      (hsystem : solver.methodName = "simple" → Expr.KeptBySystem n P)
      (hsymbols : ∀ e ∈ nodesOf (Problem.declared α solver.problem s).1.2, P e) :=
    hdeclared.builtBy (fun e he => Expr.readable_shapedWith.2 (hsymbols e he)) (hgrows hP hsystem hsymbols)
      hmake
  refine ⟨rfl, hinputs, hmethod, ?_, ⟨y, houtputs, hshape⟩, fun {P} hP hsystem hsymbols => ?_,
    fun hdirect => ?_⟩
  · obtain ⟨hfunction, -, -⟩ := hbuilt (P := fun _ => True) ⟨fun _ _ => trivial, fun _ _ _ _ _ => trivial,
      fun _ _ _ _ _ _ => trivial, fun _ _ _ _ _ _ => trivial⟩
      (fun _ => ⟨fun _ _ _ _ => trivial, fun _ _ _ _ _ _ _ => trivial⟩) fun _ _ => trivial
    have hnumbered := hfunction.numbered
    rwa [hy] at hnumbered
  · rw [hinputs] at hsymbols
    obtain ⟨-, hnodes, hsystem⟩ := hbuilt hP hsystem hsymbols
    refine ⟨fun e he => Expr.readable_shapedWith.1 (hnodes e he), fun hdirect => ?_⟩
    rw [houtputs, List.forall_mem_singleton, ← hresult]
    exact hsystem hdirect
  · rw [houtputs, List.forall_mem_singleton, ← hresult, hinputs]
    exact hkron hdirect _

end

/-- Symbols with the property are read by their shapes. -/
theorem forall₂_shapedWith {α : Type} {P : Expr α → Prop} {symbols : List (String × Expr α)}
    (hP : ∀ e ∈ nodesOf symbols, P e) (ds : List (Dense Unit))
    (hds : ds.map (·.shape) = symbols.map (·.2.shape)) :
    List.Forall₂ (fun p d => Expr.ShapedWith P p.2 d) symbols ds := by
  refine List.forall₂_iff_zip.2 ⟨?_, fun {p d} hpd => ?_⟩
  · simpa using (congrArg List.length hds).symm
  · exact ⟨List.forall₂_zip (forall₂_of_map_eq hds) hpd, hP _ ⟨p, (List.of_mem_zip hpd).1, rfl⟩⟩

/-- An output that is read by its shape makes a function. -/
theorem Declared.exists_make_of_shapedWith {α : Type} {symbols : List (String × Expr α)} {n : Nat}
    (h : Declared symbols n) {m : Build (Expr α)} {shape : Shape}
    (hm : Expr.Kept (Fits True (fun _ => True) (nodesOf symbols)) →
      (∀ e ∈ nodesOf symbols, Fits True (fun _ => True) (nodesOf symbols) e) →
        Grows (Readable (Expr.ShapedWith (Fits True (fun _ => True) (nodesOf symbols)))) (nodesOf symbols) m
          fun S y => y ∈ S ∧ y.shape = shape) (name output : String) :
    (m.run n).1.shape = shape ∧ ∃ f, Func.make name symbols [(output, (m.run n).1)] = .ok f := by
  have hsymbols : ∀ e ∈ nodesOf symbols, Fits True (fun _ => True) (nodesOf symbols) e := by
    rintro e ⟨p, hp, rfl⟩
    exact ⟨fun _ => ⟨Expr.checkOperands_of_isSymbol (h.symbol p hp), trivial⟩, fun _ => ⟨p, hp, rfl⟩⟩
  have hreadable := fun e he => Expr.readable_shapedWith.2 (hsymbols e he)
  have houtput := hm (Expr.kept_fits _) hsymbols
  obtain ⟨f, hf⟩ := h.exists_make hreadable (fun e he =>
    have hfits := Expr.readable_shapedWith.1 he
    ⟨(hfits.check trivial).1, hfits.symbol⟩) houtput name output
  obtain ⟨-, -, hshape⟩ := h.builtBy hreadable houtput hf
  exact ⟨hshape, f, hf⟩

section

variable {α : Type} [Scalar α] {name plugin : String} {o : Options} {s s' : Nat}

/-- What a method builds for square matrices makes a function of the right shape. -/
theorem Dle.Builds.exists_make {method : String} {build : DleInputs α → Build (Expr α)}
    (h : Builds method build) {e : Dle} (he : e = .square e.a.rows) (name output : String) (s : Nat) :
    ((build (Problem.declared α e s).1.1).run (Problem.declared α e s).2).1.shape = Problem.outputShape e ∧
      ∃ f, Func.make name (Problem.declared α e s).1.2 [(output,
        ((build (Problem.declared α e s).1.1).run (Problem.declared α e s).2).1)] = .ok f := by
  refine Declared.exists_make_of_shapedWith (declared_declare e s) (fun hkept hsymbols => ?_) name output
  generalize e.a.rows = n at he
  subst he
  exact ((h.grows hkept (fun _ => Expr.keptBySystem_fits _ n) 0 0).declared (forall₂_shapedWith hsymbols _ rfl)).imp
    fun S y _ hy => ⟨hy.1, hy.2.1⟩

/-- What a method builds for shapes that make sense makes a function of the right shape. -/
theorem LowRankDle.Builds.exists_make {method : String} {build : LowRankInputs α → Build (Expr α)}
    (h : Builds method build) {e : LowRankDle} (he : e.Valid) (name output : String) (s : Nat) :
    ((build (Problem.declared α e s).1.1).run (Problem.declared α e s).2).1.shape = Problem.outputShape e ∧
      ∃ f, Func.make name (Problem.declared α e s).1.2 [(output,
        ((build (Problem.declared α e s).1.1).run (Problem.declared α e s).2).1)] = .ok f := by
  refine Declared.exists_make_of_shapedWith (declared_declare e s) (fun hkept hsymbols => ?_) name output
  refine (h.grows hkept (fun _ => Expr.keptBySystem_fits _ _) (he.readAs_declare s (.zero Unit e)
    (forall₂_shapedWith hsymbols _ (Data.map_shape_matrices _ s))) (hBlocks_declare_ne_nil (K := α) e s)).imp
    fun S y _ hy => ⟨hy.1, hy.2.1.trans ?_⟩
  have hanswer := he.shape_answer (.zero Unit e) 0
  rw [Data.answer, shape_answer] at hanswer
  exact hanswer

theorem Dle.sound {e : Dle} {solver : Solver Dle DleInputs α}
    (h : (Solver.make name plugin e o).run.run s = (.ok solver, s')) : solver.Sound e e.a.rows s s' := by
  obtain ⟨build, hbuilds, hmade⟩ := exists_madeBy h
  have hvalid := validate_eq_ok.1 hmade.valid
  refine hmade.sound (declared_declare e s) hbuilds.method_eq (fun {P} hP hsystem hsymbols => ?_) fun hdirect =>
    (hbuilds.returns_below_kron hdirect _).imp fun y ⟨i, hy⟩ =>
      ⟨i, ("a", (Problem.declared α e s).1.1.a), .head _, ?_, hy⟩
  · generalize e.a.rows = n at hvalid hsystem
    subst hvalid
    exact ((hbuilds.grows hP hsystem 0 0).declared (forall₂_shapedWith hsymbols _ rfl)).imp
      fun S y _ hy => ⟨hy.1, hy.2.2⟩
  · exact congrArg Dle.a hvalid

theorem LowRankDle.sound {e : LowRankDle} {solver : Solver LowRankDle LowRankInputs α}
    (h : (Solver.make name plugin e o).run.run s = (.ok solver, s')) : solver.Sound e e.a.rows s s' := by
  obtain ⟨build, hbuilds, hmade⟩ := exists_madeBy h
  have hvalid := validate_eq_ok.1 hmade.valid
  have hne := hBlocks_declare_ne_nil (K := α) e s
  refine hmade.sound (declared_declare e s) hbuilds.method_eq (fun {P} hP hsystem hsymbols => ?_) fun hdirect =>
    (hbuilds.returns_below_kron hdirect hne).imp fun y ⟨i, hy⟩ =>
      ⟨i, ("a", (Problem.declared α e s).1.1.a), .head _, hvalid.a, hy⟩
  exact (hbuilds.grows hP hsystem (hvalid.readAs_declare s (.zero Unit e)
    (forall₂_shapedWith hsymbols _ (Data.map_shape_matrices _ s))) hne).imp fun S y _ hy => ⟨hy.1, hy.2.2⟩

end

/-! ## Names and shapes of the data and the answer -/

namespace Solver

variable {α : Type} {n s s' : Nat}

section

variable {σ : Type} {ι : Type → Type} [Problem σ ι] {solver : Solver σ ι α} {problem : σ}

theorem Sound.outputNames (h : solver.Sound problem n s s') :
    solver.function.outputNames = [Problem.output σ] := by
  obtain ⟨y, hy, -⟩ := h.output
  rw [Func.outputNames, hy]
  rfl

theorem Sound.outputShapes (h : solver.Sound problem n s s') :
    solver.function.outputShapes = [Problem.outputShape problem] := by
  obtain ⟨y, hy, hshape⟩ := h.output
  rw [Func.outputShapes, hy, ← hshape]
  rfl

end

section

variable {e : Dle} {solver : Solver Dle DleInputs α} (h : solver.Sound e n s s')

include h

theorem inputNames_dle : solver.function.inputNames = ["a", "v"] := by
  rw [Func.inputNames, h.inputs]
  rfl

theorem inputShapes_dle : solver.function.inputShapes = [e.a, e.v] := by
  rw [Func.inputShapes, h.inputs]
  rfl

end

section

variable {e : LowRankDle} {solver : Solver LowRankDle LowRankInputs α} (h : solver.Sound e n s s')

include h

theorem inputNames_lowRank : solver.function.inputNames =
    ["a", "v"] ++ (e.c.map fun _ => "c").toList ++ (e.h.map fun _ => "h").toList := by
  rw [Func.inputNames, h.inputs]
  obtain ⟨a, v, c, H, widths⟩ := e
  cases c <;> cases H <;> rfl

theorem inputShapes_lowRank :
    solver.function.inputShapes = [e.a, e.v] ++ e.c.toList ++ e.h.toList := by
  rw [Func.inputShapes, h.inputs]
  obtain ⟨a, v, c, H, widths⟩ := e
  cases c <;> cases H <;> rfl

end

end Solver

end Lyapunov
