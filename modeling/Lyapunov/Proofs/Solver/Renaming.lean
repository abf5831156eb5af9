/-
Solvers of one form. From data of one form every method builds expressions of one form, and the symbols for
the data of an equation are of one form whatever they are numbered from. Plugins that stop with the same error,
or build like methods that build expressions of one form, therefore make solvers in step, and the functions of
the solvers are of one form.
-/
import Lyapunov.Proofs.Derivative.Numbering
import Lyapunov.Proofs.Method.Renaming
import Lyapunov.Proofs.Solver.Refusal

namespace Lyapunov

open Build

/-! ## Numbers -/

theorem eq_iff_of_shift {s s' i j k l : Nat} (h : ∃ m, i = s + m ∧ j = s' + m)
    (h' : ∃ m, k = s + m ∧ l = s' + m) : i = k ↔ j = l := by
  obtain ⟨m, rfl, rfl⟩ := h
  obtain ⟨m', rfl, rfl⟩ := h'
  rw [Nat.add_left_cancel_iff, Nat.add_left_cancel_iff]

/-- Names stay as they are, and nodes that are numbered one by one from `s` and `s'` on stand for each other. -/
def Renaming.shift (s s' : Nat) : Renaming where
  number i j := ∃ k, i = s + k ∧ j = s' + k
  name := (· = ·)
  oneToOne := eq_iff_of_shift
  tagged := Renaming.same.tagged

/-! ## Methods -/

section

variable {α : Type} [Scalar α] {ρ : Renaming} {method : String}

/-- Methods for the low-rank equation build expressions of one form from data of one form. -/
theorem LowRankDle.Builds.alike {build : LowRankInputs α → Build (Expr α)} (h : Builds method build)
    {i i' : LowRankInputs α} (hi : i.Alike ρ i') : Build.Alike ρ id (build i) (build i') := by
  cases h with
  | smith k => exact Smith.alike_lowRank hi k
  | direct => exact Kronecker.alike_lowRank hi

/-- Methods for the full equation build expressions of one form from data of one form. -/
theorem Dle.Builds.alike {build : DleInputs α → Build (Expr α)} (h : Builds method build)
    {i i' : DleInputs α} (ha : Expr.Alike ρ id i.a i'.a) (hv : Expr.Alike ρ id i.v i'.v) :
    Build.Alike ρ id (build i) (build i') := by
  cases h with
  | smith settings => exact Smith.alike_dle ha hv settings
  | direct => exact Kronecker.alike_dle ha hv
  | handedOver h => exact h.alike ⟨ha, hv, .none, .none, rfl⟩

end

/-! ## Symbols for the data -/

section

variable {α : Type} {ρ : Renaming} (hname : ∀ x, ρ.name x x)

include hname

theorem alike_newSymbol_same (x : String) (s : Shape) :
    Alike ρ id (Expr.newSymbol x s : Build (Expr α)) (Expr.newSymbol x s) := alike_newSymbol (hname x) s

/-- The symbols for a factor that may be absent. -/
theorem alikeOption_mapM_newSymbol (x : String) (s : Option Shape) :
    AlikeOption ρ id (s.mapM (Expr.newSymbol x) : Build (Option (Expr α))) (s.mapM (Expr.newSymbol x)) := by
  cases s with
  | none => exact parallel_pure .none
  | some s => exact parallel_bind (alike_newSymbol_same hname x s) fun _ _ h => parallel_pure (.some h)

theorem Dle.parallel_declare (e : Dle) :
    Parallel ρ (e.declare : Build (DleInputs α × List (String × Expr α))) e.declare fun c d =>
      Expr.Alike ρ id c.1.a d.1.a ∧ Expr.Alike ρ id c.1.v d.1.v ∧ List.Forall₂ (AlikeNamed ρ id) c.2 d.2 := by
  refine parallel_bind (alike_newSymbol_same hname "A" e.a) fun _ _ ha => ?_
  refine parallel_bind (alike_newSymbol_same hname "V" e.v) fun _ _ hv => ?_
  exact parallel_pure ⟨ha, hv, .cons ⟨hname "a", ha⟩ (.cons ⟨hname "v", hv⟩ .nil)⟩

theorem LowRankDle.parallel_declare (e : LowRankDle) :
    Parallel ρ (e.declare : Build (LowRankInputs α × List (String × Expr α))) e.declare fun c d =>
      c.1.Alike ρ d.1 ∧ List.Forall₂ (AlikeNamed ρ id) c.2 d.2 := by
  have hnamed {x x' : Option (Expr α)} (hx : Option.Rel (Expr.Alike ρ id) x x') (name : String) :
      List.Forall₂ (AlikeNamed ρ id) (x.toList.map (name, ·)) (x'.toList.map (name, ·)) := by
    cases hx with
    | none => exact .nil
    | some h => exact .cons ⟨hname name, h⟩ .nil
  refine parallel_bind (alike_newSymbol_same hname "A" e.a) fun _ _ ha => ?_
  refine parallel_bind (alike_newSymbol_same hname "V" e.v) fun _ _ hv => ?_
  refine parallel_bind (alikeOption_mapM_newSymbol hname "C" e.c) fun _ _ hc => ?_
  refine parallel_bind (alikeOption_mapM_newSymbol hname "H" e.h) fun _ _ hh => ?_
  refine parallel_pure ⟨⟨ha, hv, hc, hh, rfl⟩, ?_⟩
  exact List.rel_append (List.rel_append (.cons ⟨hname "a", ha⟩ (.cons ⟨hname "v", hv⟩ .nil)) (hnamed hc "c"))
    (hnamed hh "h")

end

/-! ## Making both solvers -/

namespace Solver

section

variable {σ σ' : Type} {ι ι' : Type → Type} [Problem σ ι] [Problem σ' ι'] {α : Type} [Scalar α]

/-- The methods build, from symbols for the data of both equations, expressions of one form. -/
def BuildAlike (problem : σ) (build : ι α → Build (Expr α)) (problem' : σ') (build' : ι' α → Build (Expr α)) :
    Prop :=
  ∀ ρ : Renaming, (∀ x, ρ.name x x) → Parallel ρ
    (do let c ← Problem.declare problem; let y ← build c.1; return (c.2, y))
    (do let c ← Problem.declare problem'; let y ← build' c.1; return (c.2, y))
    fun c d => List.Forall₂ (AlikeNamed ρ id) c.1 d.1 ∧ Expr.Alike ρ id c.2 d.2

variable {problem : σ} {problem' : σ'} {p : Plugin (ι α) α} {p' : Plugin (ι' α) α} {o o' : Options}
  {name name' : String} {s s' : Nat}

/-- Plugins that stop with the same error, or build like methods that build expressions of one form, make
solvers in step. -/
theorem sameOutcome_make {ρ : Renaming} (hname : ∀ x, ρ.name x x) (hnumber : ∀ k, ρ.number (s + k) (s' + k))
    (houtput : ρ.name (Problem.output σ) (Problem.output σ'))
    (hp : Plugin.lookup? (Problem.plugins σ α) p.name = some p)
    (hp' : Plugin.lookup? (Problem.plugins σ' α) p'.name = some p')
    (hvalid : Problem.validate problem = .ok ()) (hvalid' : Problem.validate problem' = .ok ())
    (h : (∃ err, p.StopsWith o err ∧ p'.StopsWith o' err) ∨
      ∃ build build', p.BuildsLike o build ∧ p'.BuildsLike o' build' ∧ IsBuilt name problem s build ∧
        IsBuilt name' problem' s' build' ∧ BuildAlike problem build problem' build') :
    TryBuild.SameOutcome (make name p.name problem o : TryBuild (Solver σ ι α)) s
      (make name' p'.name problem' o' : TryBuild (Solver σ' ι' α)) s' fun solver _ solver' _ =>
        Func.Alike ρ id solver.function solver'.function := by
  rcases h with ⟨err, hstops, hstops'⟩ | ⟨build, build', hlike, hlike', hbuilt, hbuilt', halike⟩
  · obtain ⟨r, hrun⟩ := run_make_of_stopsWith hp hvalid hstops name s
    obtain ⟨r', hrun'⟩ := run_make_of_stopsWith hp' hvalid' hstops' name' s'
    exact .inl ⟨err, r, r', hrun, hrun'⟩
  · obtain ⟨solver, hrun, hi, ho⟩ := exists_makes_of_buildsLike hp hvalid hlike hbuilt
    obtain ⟨solver', hrun', hi', ho'⟩ := exists_makes_of_buildsLike hp' hvalid' hlike' hbuilt'
    obtain ⟨⟨hinputs, hnode⟩, -⟩ := halike ρ hname s s' hnumber
    refine .inr ⟨solver, solver', _, _, hrun, hrun', ?_, ?_⟩
    · rw [hi, hi']
      exact hinputs
    · rw [ho, ho']
      exact .cons ⟨houtput, hnode⟩ .nil

end

variable {α : Type} [Scalar α] {method : String}

/-- A method builds expressions of one form whatever the symbols are numbered from. -/
theorem buildAlike_dle {build : DleInputs α → Build (Expr α)} (h : Dle.Builds method build) (e : Dle) :
    BuildAlike e build e build := by
  intro ρ hname
  refine parallel_bind (Dle.parallel_declare hname e) fun c d ⟨ha, hv, hsymbols⟩ => ?_
  exact parallel_bind (h.alike ha hv) fun y y' hy => parallel_pure ⟨hsymbols, hy⟩

theorem buildAlike_lowRank {build : LowRankInputs α → Build (Expr α)} (h : LowRankDle.Builds method build)
    (e : LowRankDle) : BuildAlike e build e build := by
  intro ρ hname
  refine parallel_bind (LowRankDle.parallel_declare hname e) fun c d ⟨hi, hsymbols⟩ => ?_
  exact parallel_bind (h.alike hi) fun y y' hy => parallel_pure ⟨hsymbols, hy⟩

end Solver

end Lyapunov
