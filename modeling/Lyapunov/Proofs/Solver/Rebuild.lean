/-
Rebuilding a solver. A solver remembers how it was made. Made again, at any later time, it consists of new nodes
only; the new solver has the name, plugin, equation and options of the old one, gives the same values and fails
with the same errors on all arguments, and so do the derivatives of both. This holds whatever the scalars are,
and for solvers that were rebuilt themselves.
-/
import Lyapunov.Proofs.Solver.Derivatives
import Lyapunov.Proofs.Solver.Renaming

namespace Lyapunov

/-! ## Equivalent functions -/

/-- The functions have one name, and inputs and outputs of the same names and shapes. On all arguments, of
whatever shapes, they have the same values or fail with the same error. -/
structure Func.Equivalent {α : Type} [Scalar α] (f f' : Func α) : Prop where
  name : f.name = f'.name
  inputNames : f.inputNames = f'.inputNames
  outputNames : f.outputNames = f'.outputNames
  inputShapes : f.inputShapes = f'.inputShapes
  outputShapes : f.outputShapes = f'.outputShapes
  eval : ∀ args : List (Argument α), f.eval args = f'.eval args
  call : ∀ args : List (String × Argument α), f.call args = f'.call args

/-- Functions of one form and one name, with the same names of inputs and outputs. -/
theorem Func.Alike.equivalent {α : Type} [Scalar α] {ρ : Renaming} {f f' : Func α} {n n' : Nat}
    (h : Alike ρ id f f') (hsame : ∀ {x y}, ρ.name x y → x = y) (hname : f.name = f'.name)
    (hf : f.NumberedBelow n) (hf' : f'.NumberedBelow n') : f.Equivalent f' := by
  have hnames {l l' : List (String × Expr α)} (hl : List.Forall₂ (AlikeNamed ρ id) l l') :
      l.map (·.1) = l'.map (·.1) := by
    rw [← List.forall₂_eq_eq_eq, List.forall₂_map_left_iff, List.forall₂_map_right_iff]
    exact hl.imp fun _ _ hpq => hsame hpq.name
  have hcheck := checkArguments_congr hname (h.inputs.imp fun _ _ hpq => ⟨hsame hpq.name, hpq.node.shape.symm⟩)
  have heval (args : List (Argument α)) : f.eval args = f'.eval args := by
    cases hargs : f.checkArguments args with
    | ok => exact h.eval_eq hf hf' (checkArguments_eq_ok.1 hargs)
    | error err =>
      unfold eval
      rw [← hcheck, hargs]
      rfl
  refine ⟨hname, hnames h.inputs, hnames h.outputs, h.inputShapes.symm, h.outputShapes.symm, heval,
    fun args => ?_⟩
  unfold call
  rw [arrange_congr (hnames h.inputs), outputNames, outputNames, hnames h.outputs, funext heval]

namespace Solver

variable {σ : Type} {ι : Type → Type} [Problem σ ι] {α : Type} [Scalar α]

/-! ## Equivalent solvers -/

/-- The solvers have the same name, plugin, equation and options. Their functions are equivalent, and the
derivatives of both, made at any time after the solvers, are equivalent or fail with the same error. -/
structure Equivalent (solver : Solver σ ι α) (r : Nat) (solver' : Solver σ ι α) (r' : Nat) : Prop where
  name : solver.name = solver'.name
  plugin : solver.plugin = solver'.plugin
  problem : solver.problem = solver'.problem
  userOptions : solver.userOptions = solver'.userOptions
  options : solver.options = solver'.options
  function : solver.function.Equivalent solver'.function
  eval : ∀ args, solver.eval args = solver'.eval args
  forward : ∀ k t t', r ≤ t → r' ≤ t' →
    TryBuild.SameOutcome (solver.forward k) t (solver'.forward k) t' fun g _ g' _ => g.Equivalent g'
  reverse : ∀ k t t', r ≤ t → r' ≤ t' →
    TryBuild.SameOutcome (solver.reverse k) t (solver'.reverse k) t' fun g _ g' _ => g.Equivalent g'

/-- Rebuilding the solver when `t` is the number of the next node gives an equivalent solver, all of whose nodes
are new. -/
def Rebuilds (solver : Solver σ ι α) (r t : Nat) : Prop :=
  ∃ (copy : Solver σ ι α) (t' : Nat), solver.rebuild.run.run t = (.ok copy, t') ∧
    (∀ e ∈ copy.function.nodes, t ≤ e.id ∧ e.id < t') ∧ solver.Equivalent r copy t'

/-- The second solver is the first one, or arises from it by rebuilding once or more. -/
inductive Rebuilt (solver : Solver σ ι α) (r : Nat) : Solver σ ι α → Nat → Prop where
  | refl : Rebuilt solver r solver r
  | rebuild {solver' copy : Solver σ ι α} {r' t t' : Nat} : Rebuilt solver r solver' r' →
    solver'.rebuild.run.run t = (.ok copy, t') → Rebuilt solver r copy t'

/-! ## Any class of equations -/

variable {name plugin : String} {problem : σ} {o : Options} {solver solver' : Solver σ ι α} {s s' t t' : Nat}

/-- A solver that was made is rebuilt in the way it was made. -/
theorem rebuild_eq_make (h : (make name plugin problem o).run.run s = (.ok solver, s')) :
    solver.rebuild = make name plugin problem o := by
  have hplugin := plugin_name_eq h
  obtain ⟨p, r, y, f, -, -, -, -, -, -, rfl⟩ := run_make_eq_ok h
  unfold rebuild
  rw [hplugin]

theorem Rebuilt.exists_make (hmake : (make name plugin problem o).run.run s = (.ok solver, s')) {r : Nat}
    (h : Rebuilt solver s' solver' r) : ∃ t, (make name plugin problem o).run.run t = (.ok solver', r) := by
  induction h with
  | refl => exact ⟨s, hmake⟩
  | @rebuild solver' copy r' t t' _ hrun ih =>
    obtain ⟨_, hmake'⟩ := ih
    exact ⟨t, rebuild_eq_make hmake' ▸ hrun⟩

/-- Solvers that were made in the same way, with functions of one form, are equivalent. -/
theorem equivalent_of_alike (h : (make name plugin problem o).run.run s = (.ok solver, s'))
    (h' : (make name plugin problem o).run.run t = (.ok solver', t'))
    (halike : Func.Alike (.shift s t) id solver.function solver'.function)
    (hf : solver.function.NumberedBelow s') (hf' : solver'.function.NumberedBelow t')
    (hnames : ∀ mode, solver.function.Untagged mode) (hnames' : ∀ mode, solver'.function.Untagged mode) :
    solver.Equivalent s' solver' t' := by
  obtain ⟨p, r, y, f, hlookup, -, hresolve, -, -, hmake, rfl⟩ := run_make_eq_ok h
  obtain ⟨p', r', y', f', hlookup', -, hresolve', -, -, hmake', rfl⟩ := run_make_eq_ok h'
  rw [hlookup] at hlookup'
  cases hlookup'
  rw [hresolve] at hresolve'
  cases hresolve'
  have hname : f.name = f'.name := (Func.make_eq_ok hmake).1.trans (Func.make_eq_ok hmake').1.symm
  have hfunction := halike.equivalent (fun h => h) hname hf hf'
  have hderivative (mode : Mode) (k u u' : Nat) (hu : s' ≤ u) (hu' : t' ≤ u') :
      TryBuild.SameOutcome (f.differentiate mode k) u (f'.differentiate mode k) u' fun g _ g' _ =>
        g.Equivalent g' := by
    refine (halike.differentiate rfl hf hf' (hnames mode) (hnames' mode) k hu hu').imp
      fun g r g' r' hg hg' ⟨hbelow, hbelow', hgg'⟩ => hgg'.equivalent (fun h => h) ?_ hbelow hbelow'
    rw [Func.name_of_differentiate hg, Func.name_of_differentiate hg', hname]
  refine ⟨rfl, rfl, rfl, rfl, rfl, hfunction, fun args => ?_, hderivative .forward, hderivative .reverse⟩
  rw [Solver.eval, Solver.eval, hfunction.eval args]

/-- If every plugin stops with an error or builds like a method that builds expressions of one form, then a
solver can be made again at any time. -/
theorem exists_make_alike (builds : (ι α → Build (Expr α)) → Prop)
    (hnames : ((Problem.plugins σ α).map (·.name)).Nodup)
    (hplugins : ∀ p ∈ Problem.plugins σ α,
      (∃ err, p.StopsWith o err) ∨ ∃ build, builds build ∧ p.BuildsLike o build)
    (hmakes : ∀ build, builds build → ∀ n, IsBuilt name problem n build)
    (halike : ∀ build, builds build → BuildAlike problem build problem build)
    (h : (make name plugin problem o).run.run s = (.ok solver, s')) (t : Nat) :
    ∃ (solver' : Solver σ ι α) (t' : Nat), (make name plugin problem o).run.run t = (.ok solver', t') ∧
      Func.Alike (.shift s t) id solver.function solver'.function := by
  obtain ⟨p, hp, -, -, rfl, -, -, -, hmade⟩ := make_eq_ok h
  obtain ⟨-, -, -, -, -, hvalid, -⟩ := run_make_eq_ok h
  have hlookup := Plugin.lookup?_eq_some hnames hp
  rcases hplugins p hp with ⟨err, hstops⟩ | ⟨build, hbuilds, hlike⟩
  · obtain ⟨s₁, hrun⟩ := run_make_of_stopsWith hlookup hvalid hstops name s
    rw [h] at hrun
    cases hrun
  · rcases sameOutcome_make (ρ := .shift s t) (fun _ => rfl) (fun k => ⟨k, rfl, rfl⟩) rfl hlookup hlookup hvalid
      hvalid (.inr ⟨build, build, hlike, hlike, hmakes build hbuilds s, hmakes build hbuilds t,
        halike build hbuilds⟩) with ⟨err, r, -, hrun, -⟩ | ⟨solver₁, solver', r, t', hrun, hrun', hfunctions⟩
    · rw [h] at hrun
      cases hrun
    · rw [h] at hrun
      cases hrun
      exact ⟨solver', t', hrun', hfunctions⟩

/-- Then every solver that arises by rebuilding is equivalent to the one that was made, and can be rebuilt
itself. -/
theorem Rebuilt.equivalent_and_rebuilds
    (hagain : ∀ {solver : Solver σ ι α} {s s' : Nat}, (make name plugin problem o).run.run s = (.ok solver, s') →
      ∀ t, ∃ (copy : Solver σ ι α) (t' : Nat), (make name plugin problem o).run.run t = (.ok copy, t') ∧
        Func.Alike (.shift s t) id solver.function copy.function)
    (hfunction : ∀ {solver : Solver σ ι α} {s s' : Nat}, (make name plugin problem o).run.run s = (.ok solver, s') →
      solver.function.NumberedBelow s' ∧ ∀ mode, solver.function.Untagged mode)
    (h : (make name plugin problem o).run.run s = (.ok solver, s')) {r : Nat}
    (hrebuilt : Rebuilt solver s' solver' r) :
    solver.Equivalent s' solver' r ∧ ∀ t, solver'.Rebuilds r t := by
  have hequivalent {first second : Solver σ ι α} {i i' j j' : Nat}
      (hfirst : (make name plugin problem o).run.run i = (.ok first, i'))
      (hsecond : (make name plugin problem o).run.run j = (.ok second, j'))
      (halike : Func.Alike (.shift i j) id first.function second.function) : first.Equivalent i' second j' :=
    equivalent_of_alike hfirst hsecond halike (hfunction hfirst).1 (hfunction hsecond).1 (hfunction hfirst).2
      (hfunction hsecond).2
  obtain ⟨u, h'⟩ := hrebuilt.exists_make h
  constructor
  · obtain ⟨copy, u', hrun, halike⟩ := hagain h u
    rw [h'] at hrun
    cases hrun
    exact hequivalent h h' halike
  · intro t
    obtain ⟨copy, t', hrun, halike⟩ := hagain h' t
    refine ⟨copy, t', rebuild_eq_make h' ▸ hrun, fun e he => ⟨?_, (hfunction hrun).1.below e he⟩,
      hequivalent h' hrun halike⟩
    -- every node has the form of one of the other solver, whose number is counted from `u` on
    obtain ⟨x, -, hx⟩ := halike.exists_node he
    obtain ⟨k, -, hk⟩ := hx.number
    omega

/-! ## The two equations -/

section

variable {α : Type} [Scalar α] {s s' : Nat}

theorem exists_make_alike_dle {e : Dle} {solver : Solver Dle DleInputs α}
    (h : (make name plugin e o).run.run s = (.ok solver, s')) (t : Nat) :
    ∃ (copy : Solver Dle DleInputs α) (t' : Nat), (make name plugin e o).run.run t = (.ok copy, t') ∧
      Func.Alike (.shift s t) id solver.function copy.function := by
  obtain ⟨-, -, -, -, -, hvalid, -⟩ := run_make_eq_ok h
  refine exists_make_alike (fun build => ∃ method, Dle.Builds method build) Dle.names_nodup (fun p hp => ?_)
    (fun build ⟨method, hbuilds⟩ n => hbuilds.exists_make (Dle.validate_eq_ok.1 hvalid) _ _ n)
    (fun build ⟨method, hbuilds⟩ => buildAlike_dle hbuilds e) h t
  obtain ⟨hstops, hor⟩ := Dle.stopsWith_or hp o
  exact hor.imp (fun ⟨err, herr⟩ => ⟨err, hstops err herr⟩) fun ⟨method, build, hbuilds, hlike⟩ =>
    ⟨build, ⟨method, hbuilds⟩, hlike⟩

theorem exists_make_alike_lowRank {e : LowRankDle} {solver : Solver LowRankDle LowRankInputs α}
    (h : (make name plugin e o).run.run s = (.ok solver, s')) (t : Nat) :
    ∃ (copy : Solver LowRankDle LowRankInputs α) (t' : Nat),
      (make name plugin e o).run.run t = (.ok copy, t') ∧
        Func.Alike (.shift s t) id solver.function copy.function := by
  obtain ⟨-, -, -, -, -, hvalid, -⟩ := run_make_eq_ok h
  refine exists_make_alike (fun build => ∃ method, LowRankDle.Builds method build) LowRankDle.names_nodup
    (fun p hp => ?_)
    (fun build ⟨method, hbuilds⟩ n => hbuilds.exists_make (LowRankDle.validate_eq_ok.1 hvalid) _ _ n)
    (fun build ⟨method, hbuilds⟩ => buildAlike_lowRank hbuilds e) h t
  obtain ⟨hstops, hor⟩ := LowRankDle.stopsWith_or hp o
  exact hor.imp (fun ⟨err, herr⟩ => ⟨err, hstops err herr⟩) fun ⟨build, hbuilds, hlike⟩ =>
    ⟨build, ⟨p.name, hbuilds⟩, hlike⟩

/-- Whatever solver is made, with whatever plugin, shapes and options, and however often it was rebuilt: it is
equivalent to the solver that was made first, and rebuilding it gives an equivalent solver of new nodes,
whatever was built in between. -/
theorem rebuild_equivalent (α : Type) [Scalar α] (name plugin : String) (o : Options) (s s' : Nat) :
    (∀ (e : Dle) (solver : Solver Dle DleInputs α),
      (make name plugin e o).run.run s = (.ok solver, s') → ∀ solver' r, Rebuilt solver s' solver' r →
        solver.Equivalent s' solver' r ∧ ∀ t, solver'.Rebuilds r t) ∧
    (∀ (e : LowRankDle) (solver : Solver LowRankDle LowRankInputs α),
      (make name plugin e o).run.run s = (.ok solver, s') → ∀ solver' r, Rebuilt solver s' solver' r →
        solver.Equivalent s' solver' r ∧ ∀ t, solver'.Rebuilds r t) := by
  refine ⟨fun e solver h solver' r hrebuilt => ?_, fun e solver h solver' r hrebuilt => ?_⟩
  · exact hrebuilt.equivalent_and_rebuilds exists_make_alike_dle
      (fun h => ⟨(Dle.sound h).numbered, untagged_dle (Dle.sound h)⟩) h
  · exact hrebuilt.equivalent_and_rebuilds exists_make_alike_lowRank
      (fun h => ⟨(LowRankDle.sound h).numbered, untagged_lowRank (LowRankDle.sound h)⟩) h

end

/-- A solver for numbers that is rebuilt twice, and one for an equation with both factors. -/
theorem rebuild_numbers :
    (∃ (solver copy : Solver Dle DleInputs ℚ) (s' t' : Nat),
      (make "f" "simple" (Dle.square 1) .empty).run.run 0 = (.ok solver, s') ∧
      solver.rebuild.run.run (s' + 5) = (.ok copy, t') ∧ Rebuilt solver s' copy t' ∧
      solver.Equivalent s' copy t' ∧ copy.Rebuilds t' (t' + 3)) ∧
    ∃ (solver : Solver LowRankDle LowRankInputs ℚ) (s' : Nat),
      (make "g" "fixed_smith" LowRankDle.twoBlocks (Smith.termOptions 2)).run.run 0 = (.ok solver, s') ∧
      solver.Rebuilds s' s' := by
  constructor
  · obtain ⟨solver, s', hmake⟩ := exists_make_dle (α := ℚ) 1 "f" 0
    have hrebuild := (rebuild_equivalent ℚ "f" "simple" .empty 0 s').1 (.square 1) solver hmake
    obtain ⟨copy, t', hrun, -, -⟩ := (hrebuild solver s' .refl).2 (s' + 5)
    have hcopy : Rebuilt solver s' copy t' := .rebuild .refl hrun
    exact ⟨solver, copy, s', t', hmake, hrun, hcopy, (hrebuild copy t' hcopy).1, (hrebuild copy t' hcopy).2 _⟩
  · have hvalid : LowRankDle.twoBlocks.Valid := LowRankDle.validate_eq_ok.1 rfl
    have htwo : 2 < 2 ^ 63 := by decide
    obtain ⟨solver, s', hmake⟩ := Smith.exists_make_lowRank (K := ℚ) hvalid htwo "g" 0
    exact ⟨solver, s', hmake,
      ((rebuild_equivalent ℚ "g" "fixed_smith" _ 0 s').2 _ solver hmake solver s' .refl).2 s'⟩

end Solver

end Lyapunov
