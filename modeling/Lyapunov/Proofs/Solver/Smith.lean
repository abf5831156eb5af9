/-
Solvers by Smith's method compute truncated series. For the full equation `k` steps sum the first `k + 1`
terms, and with doubling the first `2 ^ k`; so a solver with doubling has the values and the derivatives of
one without that makes `2 ^ k - 1` steps. For the low-rank equation the solver gives the answer for the sum
of the first `k` terms, as `project` does.
-/
import Lyapunov.Proofs.Derivative.Agreement
import Lyapunov.Proofs.Method.Smith
import Lyapunov.Proofs.Solver.Equations
import Lyapunov.Proofs.Solver.Plugins

namespace Lyapunov.Smith

open Build Lyapunov.Dense Matrix

section Reading

variable {α : Type} [Scalar α] {K : Type} [Field K] {R : Type} [CommRing R] [Algebra K R] {φ : α → R}
  {ρ : Expr α → Dense R → Prop} (h : Reading K φ ρ)

include h

theorem growsFrom_dle {n : Nat} (A V : Matrix (Fin n) (Fin n) R) (settings : Settings) :
    Dle.GrowsFrom ρ A V (fun i => dle i.a i.v settings)
      (Reads ρ (ofMatrix (partialSum A (symmetricPart K V) settings.terms))) :=
  fun _ _ ha hv => h.grows_smithDle ha hv settings

theorem growsFrom_lowRank {e : LowRankDle} (d : LowRankDle.Data R e) (k s : Nat) :
    LowRankDle.GrowsFrom ρ d s (fun i => lowRank i k)
      (Reads ρ (d.answer (partialSum d.matrix (d.rhs K) k))) :=
  fun hi => h.grows_smithLowRank hi k

end Reading

variable {K : Type} [ExactScalar K]

/-! ## The full equation -/

section Dle

variable {n s s' t t' : Nat} {settings settings' : Settings} {name name' : String} {f g : Func K}

theorem exists_isFunction_dle (n : Nat) (settings : Settings) (name : String) (s : Nat) :
    ∃ (f : Func K) (s' : Nat),
      Problem.IsFunction name (Dle.square n) (fun i => dle i.a i.v settings) s f s' :=
  Dle.exists_isFunction name s fun T => growsFrom_dle (Expr.reading_formedAs T) 0 0 settings

theorem eval_dle (hf : Problem.IsFunction name (Dle.square n) (fun i => dle i.a i.v settings) s f s')
    {A V : Matrix (Fin n) (Fin n) K} {args : List (Argument K)}
    (hargs : args.map (·.toDense) = [ofMatrix A, ofMatrix V]) :
    f.eval args = .ok [ofMatrix (partialSum A (symmetricPart K V) settings.terms)] :=
  Dle.eval_eq_ok hf hargs (growsFrom_dle (Expr.reading_computes _) A V settings)

/-- Solvers that sum the same number of terms have the same values and the same rates of change. -/
theorem sameRates (hf : Problem.IsFunction name (Dle.square n) (fun i => dle i.a i.v settings) s f s')
    (hg : Problem.IsFunction name' (Dle.square n) (fun i => dle i.a i.v settings') t g t')
    (hterms : settings.terms = settings'.terms) : f.SameRates g := by
  have hshapes := Dle.inputShapes hf
  have hnames := (Dle.outputNames hf).trans (Dle.outputNames hg).symm
  refine ⟨⟨(Dle.inputNames hf).trans (Dle.inputNames hg).symm, hshapes.trans (Dle.inputShapes hg).symm, hnames,
    fun args hargs => ?_⟩, hf.outputShapes.trans hg.outputShapes.symm, fun args u hargs hu => ?_⟩
  · obtain ⟨A, V, hA⟩ := exists_pair ((map_shape_toDense rfl).symm.trans (hargs.trans hshapes))
    exact ⟨_, eval_dle hf hA, hterms ▸ eval_dle hg hA⟩
  rw [hshapes] at hargs hu
  obtain ⟨A, V, hA⟩ := exists_pair ((map_shape_toDense rfl).symm.trans hargs)
  obtain ⟨A', V', hduals⟩ := exists_pair ((map_shape_duals (hargs.trans hu.symm)).trans hargs)
  -- both sums are the same matrix over the dual numbers
  have hfrates := hf.built.namedRates_eq hargs hu (eval_dle hf hA)
    ((growsFrom_dle (Expr.reading_dualComputes (f.dualBinding args u)) A' V' settings).declared
      (hduals ▸ hf.built.forall₂_dualComputes hargs hu))
  have hgrates := hg.built.namedRates_eq hargs hu (eval_dle hg hA)
    ((growsFrom_dle (Expr.reading_dualComputes (g.dualBinding args u)) A' V' settings').declared
      (hduals ▸ hg.built.forall₂_dualComputes hargs hu))
  rw [hfrates, hgrates, hnames, hterms]

/-- The function of the full equation with the settings, and that of solvers that are asked for them. -/
def IsDleFunction (n : Nat) (settings : Settings) (name : String) (s : Nat) (f : Func K) (s' : Nat) : Prop :=
  Solver.HasFunction name "fixed_smith" (Dle.square n) (fun i => dle i.a i.v settings)
    (settings.AskedBy (dlePlugin K).schemas) s f s'

theorem isDleFunction_of (hf : Problem.IsFunction name (Dle.square n) (fun i => dle i.a i.v settings) s f s') :
    IsDleFunction n settings name s f s' :=
  hf.hasFunction fun _ ho => offers_dle ho

/-- The solver computes the truncated series. With doubling it agrees in its values and all its derivatives
with the one without that sums as many terms. -/
theorem dle_spec (n : Nat) (settings : Settings) (name : String) (s : Nat) :
    ∃ (f : Func K) (s' : Nat), IsDleFunction n settings name s f s' ∧
      (settings.iter < 2 ^ 63 → settings.AskedBy (dlePlugin K).schemas settings.options) ∧
      (∀ (A V : Matrix (Fin n) (Fin n) K) (args : List (Argument K)),
        args.map (·.toDense) = [ofMatrix A, ofMatrix V] →
          f.eval args = .ok [ofMatrix (partialSum A (symmetricPart K V) settings.terms)]) ∧
      (settings.freqDoubling = true → ∀ (name' : String) (t : Nat), ∃ (g : Func K) (t' : Nat),
        IsDleFunction n ⟨2 ^ settings.iter - 1, false⟩ name' t g t' ∧
          f.SameValues g ∧ f.SameDerivatives s' g t') := by
  obtain ⟨f, s', hf⟩ := exists_isFunction_dle (K := K) n settings name s
  refine ⟨f, s', isDleFunction_of hf, settings.askedBy_options K, fun A V args => eval_dle hf,
    fun hdoubling name' t => ?_⟩
  obtain ⟨g, t', hg⟩ := exists_isFunction_dle (K := K) n ⟨2 ^ settings.iter - 1, false⟩ name' t
  have hterms : settings.terms = Settings.terms ⟨2 ^ settings.iter - 1, false⟩ := by
    rw [Settings.terms, if_pos hdoubling, Settings.terms, if_neg Bool.false_ne_true]
    exact (Nat.sub_add_cancel Nat.one_le_two_pow).symm
  have hrates := sameRates hf hg hterms
  exact ⟨g, t', isDleFunction_of hg, hrates.values,
    hrates.sameDerivatives hf.numbered hg.numbered hf.contractible hg.contractible (Dle.untagged hf)⟩

/-- Two steps with doubling sum four terms. -/
theorem dle_two_doublings : ∃ (f : Func ℚ) (s' : Nat),
    IsDleFunction 1 ⟨2, true⟩ "f" 0 f s' ∧
      Solver.Makes "f" "fixed_smith" (Dle.square 1) (Settings.options ⟨2, true⟩) 0 f s' ∧
      f.eval [.scalar 2, .scalar 3] = .ok [.ofScalar 255] ∧
      ∃ (g : Func ℚ) (t' : Nat), IsDleFunction 1 ⟨3, false⟩ "g" 0 g t' ∧ f.SameValues g ∧
        f.SameDerivatives s' g t' := by
  obtain ⟨f, s', hf, hasked, heval, hplain⟩ := dle_spec (K := ℚ) 1 ⟨2, true⟩ "f" 0
  refine ⟨f, s', hf, hf.makes _ (hasked (by decide)), ?_, hplain rfl "g" 0⟩
  have hsum : partialSum (!![2] : Matrix (Fin 1) (Fin 1) ℚ) (symmetricPart ℚ !![3])
      (Settings.terms ⟨2, true⟩) = !![255] := by decide +kernel
  have hvalue := heval !![2] !![3] [.scalar 2, .scalar 3]
    (congrArg₂ (fun a v => [a, v]) (ofScalar_eq_ofMatrix 2) (ofScalar_eq_ofMatrix 3))
  rw [hvalue, hsum, ofScalar_eq_ofMatrix]

end Dle

/-! ## The low-rank equation -/

section LowRank

variable {e : LowRankDle} {k s s' : Nat} {name : String} {f : Func K}

theorem exists_isFunction_lowRank (he : e.Valid) (k : Nat) (name : String) (s : Nat) :
    ∃ (f : Func K) (s' : Nat), Problem.IsFunction name e (fun i => lowRank i k) s f s' :=
  LowRankDle.exists_isFunction he name s fun T =>
    growsFrom_lowRank (Expr.reading_formedAs T) (LowRankDle.Data.zero K e) k s

theorem eval_lowRank (hf : Problem.IsFunction name e (fun i => lowRank i k) s f s') (he : e.Valid)
    {d : LowRankDle.Data K e} {args : List (Argument K)} (hargs : args.map (·.toDense) = d.matrices) :
    f.eval args = .ok [d.answer (partialSum d.matrix (d.rhs K) k)] :=
  LowRankDle.eval_eq_ok hf he hargs (growsFrom_lowRank (Expr.reading_computes _) d k s)

/-- The function of the low-rank equation with `k` terms, and that of solvers that are asked for them. -/
def IsLowRankFunction (e : LowRankDle) (k : Nat) (name : String) (s : Nat) (f : Func K) (s' : Nat) : Prop :=
  Solver.HasFunction name "fixed_smith" e (fun i => lowRank i k)
    (fun o => ∃ doubling, Settings.AskedBy ⟨k, doubling⟩ (lowRankPlugin K).schemas o) s f s'

theorem isLowRankFunction_of (hf : Problem.IsFunction name e (fun i => lowRank i k) s f s') :
    IsLowRankFunction e k name s f s' := by
  refine hf.hasFunction fun o ho => ?_
  obtain ⟨doubling, ho⟩ := ho
  -- stated first, so that the number of terms is read off the settings
  have hoffers := offers_lowRank ho
  exact hoffers

theorem exists_make_lowRank (he : e.Valid) {k : Nat} (hk : k < 2 ^ 63) (name : String) (s : Nat) :
    ∃ (solver : Solver LowRankDle LowRankInputs K) (s' : Nat),
      (Solver.make name "fixed_smith" e (termOptions k)).run.run s = (.ok solver, s') := by
  obtain ⟨f, s', hf⟩ := exists_isFunction_lowRank (K := K) he k name s
  obtain ⟨solver, hmake, -⟩ := (isLowRankFunction_of hf).makes _ ⟨_, askedBy_termOptions K hk⟩
  exact ⟨solver, s', hmake⟩

/-- The solver gives the answer for the sum of the first terms, as `project` does. -/
theorem lowRank_spec (e : LowRankDle) (he : e.validate = .ok ()) (k : Nat) (name : String) (s : Nat) :
    ∃ (f : Func K) (s' : Nat), IsLowRankFunction e k name s f s' ∧
      (k < 2 ^ 63 → Settings.AskedBy ⟨k, false⟩ (lowRankPlugin K).schemas (termOptions k)) ∧
      ∀ (d : LowRankDle.Data K e) (args : List (Argument K)), args.map (·.toDense) = d.matrices →
        f.eval args = .ok [d.answer (partialSum d.matrix (d.rhs K) k)] ∧
        (k = 0 → f.eval args = .ok [.zero e.outputShape]) ∧
        (∃ (g : Func K) (t' : Nat),
          (Problem.function name e fun i => do
            i.project (← Expr.newConstant (ofMatrix (partialSum d.matrix (d.rhs K) k)))).run.run s =
              (.ok g, t') ∧
          f.eval args = g.eval args) ∧
        (e.h = none → 0 < k → ∃ (g : Func K) (t' : Nat), IsDleFunction e.a.rows ⟨k - 1, false⟩ name s g t' ∧
          f.eval args = g.eval [.dense d.a, .dense (ofMatrix (d.rhs K))]) := by
  have he := LowRankDle.validate_eq_ok.1 he
  obtain ⟨f, s', hf⟩ := exists_isFunction_lowRank (K := K) he k name s
  refine ⟨f, s', isLowRankFunction_of hf, askedBy_termOptions K, fun d args hargs => ?_⟩
  have hvalue := eval_lowRank hf he hargs
  refine ⟨hvalue, fun hk => ?_, ?_, fun hh hk => ?_⟩
  · rw [hvalue, hk, partialSum_zero, he.answer_zero]
  · obtain ⟨g, t', hg, hproject⟩ :=
      LowRankDle.exists_function_project he d (partialSum d.matrix (d.rhs K) k) name s
    exact ⟨g, t', hg, hvalue.trans (hproject args hargs).symm⟩
  · obtain ⟨g, t', hg⟩ := exists_isFunction_dle (K := K) e.a.rows ⟨k - 1, false⟩ name s
    refine ⟨g, t', isDleFunction_of hg, ?_⟩
    have hargs' : [Argument.dense d.a, .dense (ofMatrix (d.rhs K))].map (·.toDense) =
        [ofMatrix d.matrix, ofMatrix (d.rhs K)] := by rw [he.ofMatrix_matrix]; rfl
    have hterms : Settings.terms ⟨k - 1, false⟩ = k := Nat.sub_add_cancel hk
    have hrhs : symmetricPart K (d.rhs K) = d.rhs K := LowRankDle.symmetricPart_rhs K _ d.v d.c
    rw [hvalue, d.answer_of_h_eq_none hh, eval_dle hg hargs', hterms, hrhs]

/-- Two terms of a series, projected to two blocks. -/
theorem lowRank_two_terms : LowRankDle.twoBlocks.validate = .ok () ∧
    ∃ (f : Func ℚ) (s' : Nat), IsLowRankFunction LowRankDle.twoBlocks 2 "f" 0 f s' ∧
      Solver.Makes "f" "fixed_smith" LowRankDle.twoBlocks (termOptions 2) 0 f s' ∧
      ∃ y, f.eval (LowRankDle.twoBlocksData.matrices.map .dense) = .ok [y] ∧
        y.entries = #[20, 0, 0, 10] := by
  obtain ⟨f, s', hf, hasked, heval⟩ := lowRank_spec (K := ℚ) LowRankDle.twoBlocks rfl 2 "f" 0
  refine ⟨rfl, f, s', hf, hf.makes _ ⟨_, hasked (by decide)⟩, _, (heval LowRankDle.twoBlocksData _ rfl).1, ?_⟩
  decide +kernel

end LowRank

end Lyapunov.Smith
