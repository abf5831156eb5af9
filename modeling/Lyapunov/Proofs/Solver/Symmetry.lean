/-
Solvers and symmetry. Whatever made it, a solver gives symmetric answers, which depend on `V` through its
symmetric part only. So an answer does not change where `V` changes by a matrix that is the negative of its
transpose, and since reverse derivatives are adjoint to rates of change, the gradients for `V` are symmetric
for all seeds, symmetric or not.
-/
import Lyapunov.Proofs.Solver.Derivatives
import Lyapunov.Proofs.Solver.Scheme

namespace Lyapunov

open Build Lyapunov.Dense Matrix

variable {K : Type} [ExactScalar K]

/-- In the direction `u` only `V` changes, by a matrix that is the negative of its transpose. -/
def Skew (u : List (Argument K)) : Prop :=
  ∃ (s : Shape) (d : Dense K) (ss : List Shape), u.map (·.toDense) = .zero s :: d :: ss.map .zero ∧
    d.transpose = d.neg

theorem shape_eq_of_sum {v w : Argument K}
    (h : w.toDense.add w.toDense.transpose = v.toDense.add v.toDense.transpose) : w.shape = v.shape := by
  rw [← w.shape_toDense, ← v.shape_toDense]
  exact congrArg (·.shape) h

/-! ## Functions that follow a scheme -/

namespace Func.Follows

variable {f : Func K} {scheme : Scheme} {e : LowRankDle} {args : List (Argument K)} {values : List (Dense K)}
  (h : f.Follows scheme e)

include h

theorem exists_data (hargs : args.map (·.shape) = f.inputShapes) :
    ∃ d : LowRankDle.Data K e, args.map (·.toDense) = d.matrices := by
  obtain ⟨d, hd⟩ := LowRankDle.exists_data ((map_shape_toDense rfl).symm.trans (hargs.trans h.inputShapes))
  exact ⟨d, hd.symm⟩

/-- Every value is an answer. -/
theorem exists_answer (hv : f.eval args = .ok values) : ∃ (d : LowRankDle.Data K e) (P : _),
    args.map (·.toDense) = d.matrices ∧ scheme.Regular d.matrix ∧ scheme.Gives d.matrix (d.rhs K) P ∧
      values = [d.answer P] := by
  obtain ⟨d, hd⟩ := h.exists_data (shapes_of_eval hv)
  by_cases hA : scheme.Regular d.matrix
  · obtain ⟨P, hP, -⟩ := hA.existsUnique (d.rhs K)
    refine ⟨d, P, hd, hA, hP, ?_⟩
    rw [h.eval hd hA hP] at hv
    exact (Except.ok.inj hv).symm
  · rw [h.singular hd hA] at hv
    cases hv

/-- Arguments with a direction are data over the dual numbers. -/
theorem exists_dualData (hargs : args.map (·.shape) = f.inputShapes) {d : LowRankDle.Data K e}
    (hd : args.map (·.toDense) = d.matrices) {u : List (Argument K)} (hu : u.map (·.shape) = f.inputShapes) :
    ∃ d' : LowRankDle.Data (DualNumber K) e,
      ((args.zip u).map fun x => dual x.1.toDense x.2.toDense) = d'.matrices ∧ rePart d'.matrix = d.matrix := by
  obtain ⟨d', hd'⟩ := LowRankDle.exists_data
    ((map_shape_duals (hargs.trans hu.symm)).trans (hargs.trans h.inputShapes))
  refine ⟨d', hd'.symm, ?_⟩
  obtain ⟨x, u, rfl, -, -⟩ := List.map_eq_cons_iff.1 (hu.trans h.inputShapes)
  rw [map_zip_dual, hd] at hd'
  have ha : d'.a = dual d.a x.toDense := (List.cons.inj hd').1
  ext i j
  rw [rePart_apply, LowRankDle.Data.matrix, ha]
  exact fst_get_dual _ _ _ _

theorem transpose_eval (hv : f.eval args = .ok values) : ∀ y ∈ values, y.transpose = y := by
  obtain ⟨d, P, -, hA, hP, rfl⟩ := h.exists_answer hv
  rw [List.forall_mem_singleton]
  exact LowRankDle.transpose_answer d.h e.blockWidths
    (hA.transpose_eq (LowRankDle.transpose_rhs K e.a.rows d.v d.c) hP)

variable (he : e.Valid)

include he

/-- Matrices `V` with the same symmetric part give the same value or the same error. -/
theorem eval_congr {a v w : Argument K} {rest : List (Argument K)}
    (hvw : w.toDense.add w.toDense.transpose = v.toDense.add v.toDense.transpose) :
    f.eval (a :: w :: rest) = f.eval (a :: v :: rest) := by
  have hshape := shape_eq_of_sum hvw
  have hshapes : (a :: w :: rest).map (·.shape) = (a :: v :: rest).map (·.shape) := by
    rw [List.map_cons, List.map_cons, hshape]
    rfl
  by_cases hargs : (a :: v :: rest).map (·.shape) = f.inputShapes
  · obtain ⟨d, hd⟩ := h.exists_data hargs
    have hv : v.toDense = d.v := (List.cons.inj (List.cons.inj hd).2).1
    have hw : w.toDense.shape = e.v := by rw [w.shape_toDense, hshape, ← v.shape_toDense, hv, d.shape_v]
    have hdw := d.matrices_withV hd.symm hw
    have hrhs := d.rhs_withV K he hw (hv ▸ hvw)
    by_cases hA : scheme.Regular d.matrix
    · obtain ⟨P, hP, -⟩ := hA.existsUnique (d.rhs K)
      rw [h.eval hd hA hP]
      exact h.eval (d := d.withV w.toDense hw) hdw.symm hA (hrhs.symm ▸ hP)
    · rw [h.singular hd hA]
      exact h.singular hdw.symm hA
  · exact eval_of_shapes_eq hshapes (hshapes ▸ hargs)

/-- Directions for `V` with the same symmetric part give the same rates of change. -/
theorem rate_congr (hv : f.eval args = .ok values) {a v w : Argument K} {rest : List (Argument K)}
    (hu : (a :: v :: rest).map (·.shape) = f.inputShapes)
    (hvw : w.toDense.add w.toDense.transpose = v.toDense.add v.toDense.transpose) {y : String × Expr K}
    (hy : y ∈ f.outputs) :
    y.2.rate (f.binding args) (f.binding (a :: w :: rest)) =
      y.2.rate (f.binding args) (f.binding (a :: v :: rest)) := by
  have hargs := shapes_of_eval hv
  have hshape := shape_eq_of_sum hvw
  have hu' : (a :: w :: rest).map (·.shape) = f.inputShapes := by
    rw [← hu, List.map_cons, List.map_cons, hshape]
    rfl
  obtain ⟨d, -, hd, hA, -, -⟩ := h.exists_answer hv
  obtain ⟨d₁, hd₁, hre⟩ := h.exists_dualData hargs hd hu
  have hduals (v : Argument K) : ((args.zip (a :: v :: rest)).map fun x => dual x.1.toDense x.2.toDense) =
      dual d.a a.toDense :: dual d.v v.toDense ::
        List.zipWith dual (d.c.toList ++ d.h.toList) (rest.map (·.toDense)) := by
    rw [map_zip_dual, hd]
    rfl
  -- the data over the dual numbers for the other direction differ in `V` only
  have hv₁ : dual d.v v.toDense = d₁.v := (List.cons.inj (List.cons.inj ((hduals v).symm.trans hd₁)).2).1
  have hdv : d.v.shape = e.v := d.shape_v
  have hd₂ := d₁.matrices_withV (w := dual d.v w.toDense) (hd₁.symm.trans (hduals v)) hdv
  have hshapev : v.toDense.shape = d.v.shape := by
    rw [v.shape_toDense, hdv]
    exact (List.cons.inj (List.cons.inj (hu.trans h.inputShapes)).2).1
  have hshapew : w.toDense.shape = d.v.shape := by
    rw [← hshapev, w.shape_toDense, hshape, v.shape_toDense]
  have hrhs : (d₁.withV (dual d.v w.toDense) hdv).rhs K = d₁.rhs K :=
    d₁.rhs_withV K he hdv (hv₁ ▸ dual_add_transpose_congr (hdv.trans he.v) hshapev hshapew hvw)
  have hA₁ : scheme.Regular d₁.matrix := Scheme.regular_dual_iff.2 (hre.symm ▸ hA)
  obtain ⟨P, hP, -⟩ := hA₁.existsUnique (d₁.rhs K)
  rw [h.rates hv hu hd₁ hA₁ hP y hy]
  exact h.rates hv hu' ((hduals w).trans hd₂.symm) hA₁ (hrhs.symm ▸ hP) y hy

/-- The outputs do not change where `V` changes by the negative of its transpose. -/
theorem rate_of_skew {n : Nat} (hf : f.NumberedBelow n) (hv : f.eval args = .ok values) {u : List (Argument K)}
    (hu : u.map (·.shape) = f.inputShapes) (hskew : Skew u) {y : String × Expr K} (hy : y ∈ f.outputs) :
    y.2.rate (f.binding args) (f.binding u) = .zero y.2.shape := by
  obtain ⟨s, d, ss, hdirection, htranspose⟩ := hskew
  have hshapes : f.inputShapes = s :: d.shape :: ss := by
    rw [← hu, map_shape_toDense hdirection, List.map_cons, List.map_cons, List.map_map]
    exact congrArg (s :: d.shape :: ·) (List.map_id ss)
  obtain ⟨a, u, rfl, ha, hdirection⟩ := List.map_eq_cons_iff.1 hdirection
  obtain ⟨w, rest, rfl, rfl, hrest⟩ := List.map_eq_cons_iff.1 hdirection
  have hzero : (a :: .dense (.zero w.toDense.shape) :: rest).map (·.toDense) = f.inputShapes.map .zero := by
    rw [hshapes, List.map_cons, List.map_cons, ha, hrest]
    rfl
  have hu₀ : (a :: .dense (.zero w.toDense.shape) :: rest).map (·.shape) = f.inputShapes := by
    rw [← hu, List.map_cons, List.map_cons, List.map_cons, List.map_cons, ← w.shape_toDense]
    rfl
  rw [h.rate_congr he hv hu₀ (add_transpose_of_skew htranspose) hy]
  exact hf.rate_zero hv hzero hy

/-- Matrices that pair with the directions as weights do with the rates of change: the one for `V` is
symmetric. -/
theorem transpose_of_pairing {n : Nat} (hf : f.NumberedBelow n) (hv : f.eval args = .ok values)
    {ws dxs : List (Dense K)} (hdxs : dxs.map (·.shape) = f.inputShapes)
    (hpairing : ∀ u : List (Argument K), u.map (·.shape) = f.inputShapes →
      innerSum ws (f.outputs.map (·.2.rate (f.binding args) (f.binding u))) =
        innerSum dxs (u.map (·.toDense))) : ∃ da dv rest, dxs = da :: dv :: rest ∧ dv.transpose = dv := by
  have hshapes := hdxs.trans h.inputShapes
  obtain ⟨da, dxs, rfl, hda, hshapes⟩ := List.map_eq_cons_iff.1 hshapes
  obtain ⟨dv, rest, rfl, hdv, hrest⟩ := List.map_eq_cons_iff.1 hshapes
  refine ⟨da, dv, rest, rfl, transpose_eq_of_inner (hdv.trans he.v) fun d hd hskew => ?_⟩
  let u : List (Argument K) := .dense (.zero da.shape) :: .dense d :: rest.map fun x => .dense (.zero x.shape)
  have hdirection : u.map (·.toDense) = .zero da.shape :: d :: (rest.map (·.shape)).map .zero := by
    simp only [u, List.map_cons, List.map_map]
    rfl
  have hu : u.map (·.shape) = f.inputShapes := by
    rw [← hdxs, map_shape_toDense hdirection, List.map_cons, List.map_cons, List.map_cons, List.map_cons,
      hd, hdv, he.v, List.map_map]
    exact congrArg (_ :: _ :: ·) (List.map_id _)
  have hrates : f.outputs.map (·.2.rate (f.binding args) (f.binding u)) =
      (f.outputs.map (·.2.shape)).map .zero := by
    rw [List.map_map]
    exact List.map_congr_left fun y hy => h.rate_of_skew he hf hv hu ⟨_, d, _, hdirection, hskew⟩ hy
  have hinner := hpairing u hu
  rwa [hrates, hdirection, innerSum_zeros, innerSum_cons, innerSum_cons, inner_zero, innerSum_zeros, zero_add,
    add_zero, eq_comm] at hinner

variable {n n' k : Nat} {g : Func K}

/-- The additional outputs of a forward derivative are zero for directions of that kind, whatever the other
directions are. -/
theorem forward_of_skew (hf : f.NumberedBelow n) (hg : (f.forward k).run.run n = (.ok g, n'))
    (hv : f.eval args = .ok values) {us : List (List (Argument K))} (hk : us.length = k)
    (hus : ∀ u ∈ us, u.map (·.shape) = f.inputShapes) :
    ∃ out, g.eval (args ++ us.flatten) = .ok out ∧ ∀ d u, us[d]? = some u → Skew u →
      ∀ y ∈ f.outputs, g.output? out (directionTag "fwd" d ++ y.1) = some (.zero y.2.shape) := by
  obtain ⟨out, hout, hrates⟩ := forward_values hf hg hv hk hus
  refine ⟨out, hout, fun d u hu hskew y hy => ?_⟩
  have hrate := h.rate_of_skew he hf hv (hus u (List.mem_of_getElem? hu)) hskew hy
  rw [hrates d u hu y hy, hrate]

/-- The gradients for `V` are symmetric. -/
theorem reverse_transpose (hinputs : ["a", "v"] <+: f.inputNames) (hf : f.NumberedBelow n)
    (hg : (f.reverse k).run.run n = (.ok g, n')) (hv : f.eval args = .ok values)
    {ws : List (List (Argument K))} (hk : ws.length = k) (hws : ∀ w ∈ ws, w.map (·.shape) = f.outputShapes) :
    ∃ out, g.eval (args ++ ws.flatten) = .ok out ∧ ∀ d, d < k →
      ∃ z, g.output? out (directionTag "adj" d ++ "v") = some z ∧ z.transpose = z := by
  obtain ⟨out, hout, hadjoints⟩ := reverse_values hf hg hv hk hws
  refine ⟨out, hout, fun d hd => ?_⟩
  obtain ⟨dxs, hdxs, hpairing⟩ := hadjoints d _ (List.getElem?_eq_getElem (hk ▸ hd))
  obtain ⟨hresults, hdxs⟩ := map_output?_eq hdxs
  obtain ⟨da, dv, rest, rfl, htranspose⟩ := h.transpose_of_pairing he hf hv hdxs hpairing
  obtain ⟨names, hnames⟩ := hinputs
  rw [← hnames] at hresults
  exact ⟨dv, (List.cons.inj (List.cons.inj hresults).2).1, htranspose⟩

end Func.Follows

/-! ## Solvers -/

namespace Solver

section

variable {σ : Type} {ι : Type → Type} [Problem σ ι]

/-- Answers and gradients for `V` are symmetric, and only the symmetric part of `V` matters. The derivatives
are made from nodes with the numbers `s'` on. -/
structure Symmetric (solver : Solver σ ι K) (s' : Nat) : Prop where
  inputs : ["a", "v"] <+: solver.function.inputNames
  answer : ∀ args y, solver.eval args = .ok y → y.transpose = y
  eval : ∀ (a v w : Argument K) (rest : List (Argument K)),
    w.toDense.add w.toDense.transpose = v.toDense.add v.toDense.transpose →
      solver.eval (a :: w :: rest) = solver.eval (a :: v :: rest)
  forward : ∀ k r, s' ≤ r → ∃ g r', (solver.forward k).run.run r = (.ok g, r') ∧
    ∀ (args : List (Argument K)) (y : Dense K) (us : List (List (Argument K))), solver.eval args = .ok y →
      us.length = k → (∀ u ∈ us, u.map (·.shape) = solver.function.inputShapes) →
        ∃ out, g.eval (args ++ us.flatten) = .ok out ∧ ∀ (d : Nat) (u : List (Argument K)), us[d]? = some u →
          Skew u → g.output? out (s!"fwd{d}_" ++ Problem.output σ) =
            some (.zero (Problem.outputShape solver.problem))
  reverse : ∀ k r, s' ≤ r → ∃ g r', (solver.reverse k).run.run r = (.ok g, r') ∧
    ∀ (args : List (Argument K)) (y : Dense K) (ws : List (Argument K)), solver.eval args = .ok y →
      ws.length = k → (∀ w ∈ ws, w.shape = Problem.outputShape solver.problem) →
        ∃ out, g.eval (args ++ ws) = .ok out ∧ ∀ d : Nat, d < k →
          ∃ z, g.output? out (s!"adj{d}_" ++ "v") = some z ∧ z.transpose = z

variable {solver : Solver σ ι K} {problem : σ} {scheme : Scheme} {e : LowRankDle} {n s s' : Nat}

omit [Problem σ ι] in
/-- The answer is the only value of the function. -/
theorem function_eval_of_follows (h : solver.function.Follows scheme e) {args : List (Argument K)} {y : Dense K}
    (hy : solver.eval args = .ok y) : solver.function.eval args = .ok [y] := by
  obtain ⟨values, hv, hy⟩ := Except.bind_eq_ok.1 hy
  obtain ⟨d, P, -, -, -, rfl⟩ := h.exists_answer hv
  cases hy
  exact hv

/-- A solver whose function follows a scheme. -/
theorem symmetric_of_follows (h : solver.function.Follows scheme e) (he : e.Valid)
    (hsound : solver.Sound problem n s s') (hderivatives : solver.Differentiates n s') (hn : 0 < n)
    (hinputs : ["a", "v"] <+: solver.function.inputNames) : solver.Symmetric s' := by
  refine ⟨hinputs, fun args y hy => ?_, fun a v w rest hvw => ?_, fun k r hr => ?_, fun k r hr => ?_⟩
  · exact h.transpose_eval (function_eval_of_follows h hy) y (List.mem_singleton_self y)
  · rw [Solver.eval, Solver.eval, h.eval_congr he hvw]
  · obtain ⟨g, r', hg⟩ := hderivatives.forward k r hr
    refine ⟨g, r', hg, fun args y us hy hk hus => ?_⟩
    obtain ⟨out, hout, hzero⟩ :=
      h.forward_of_skew he (hsound.numbered.mono hr) hg (function_eval_of_follows h hy) hk hus
    obtain ⟨output, houtput, hshape⟩ := hsound.output
    refine ⟨out, hout, fun d u hu hskew => ?_⟩
    rw [hsound.of, ← hshape]
    exact hzero d u hu hskew (Problem.output σ, output) (houtput ▸ List.mem_singleton_self _)
  · have hne : ¬ (solver.methodName = "simple" ∧ n = 0) := fun hdirect => hn.ne' hdirect.2
    obtain ⟨g, r', hg⟩ := (hderivatives.reverse k r hr).2 (.inr hne)
    refine ⟨g, r', hg, fun args y ws hy hk hws => ?_⟩
    -- each direction has one seed
    have hlength : (ws.map fun w => [w]).length = k := by rw [List.length_map, hk]
    have hshapes : ∀ w ∈ ws.map fun w => [w], w.map (·.shape) = solver.function.outputShapes := by
      rw [List.forall_mem_map, hsound.outputShapes, ← hsound.of]
      exact fun w hw => congrArg ([·]) (hws w hw)
    have hreverse := h.reverse_transpose he hinputs (hsound.numbered.mono hr) hg
      (function_eval_of_follows h hy) hlength hshapes
    rwa [← List.flatMap_def, List.flatMap_singleton'] at hreverse

end

/-- Every solver that was made, for a matrix `A` with rows, gives symmetric answers that depend on the
symmetric part of `V` only; the gradients for `V` are symmetric. -/
theorem symmetric_of_make (name plugin : String) (o : Options) (s s' : Nat) :
    (∀ (e : Dle) (solver : Solver Dle DleInputs K),
      (make name plugin e o).run.run s = (.ok solver, s') → 0 < e.a.rows → solver.Symmetric s') ∧
    (∀ (e : LowRankDle) (solver : Solver LowRankDle LowRankInputs K),
      (make name plugin e o).run.run s = (.ok solver, s') → 0 < e.a.rows → solver.Symmetric s') := by
  refine ⟨fun e solver h hn => ?_, fun e solver h hn => ?_⟩
  · have hsound := Dle.sound h
    obtain ⟨scheme, hfollows⟩ := Dle.exists_follows h hn
    obtain ⟨build, -, hmade⟩ := Dle.exists_madeBy h
    refine symmetric_of_follows hfollows (Dle.valid_lowRank (Dle.validate_eq_ok.1 hmade.valid)) hsound
      (hsound.differentiates (untagged_dle hsound)) hn ?_
    rw [inputNames_dle hsound]
  · have hsound := LowRankDle.sound h
    obtain ⟨scheme, hfollows⟩ := LowRankDle.exists_follows h hn
    obtain ⟨build, -, hmade⟩ := LowRankDle.exists_madeBy h
    refine symmetric_of_follows hfollows (LowRankDle.validate_eq_ok.1 hmade.valid) hsound
      (hsound.differentiates (untagged_lowRank hsound)) hn ?_
    rw [inputNames_lowRank hsound, List.append_assoc]
    exact List.prefix_append _ _

/-- A solver for matrices with two rows, and one for an equation with both factors. -/
theorem symmetric_two_rows :
    (∃ (solver : Solver Dle DleInputs ℚ) (s' : Nat),
      (make "f" "simple" (Dle.square 2) .empty).run.run 0 = (.ok solver, s') ∧ solver.Symmetric s') ∧
    ∃ (solver : Solver LowRankDle LowRankInputs ℚ) (s' : Nat),
      (make "g" "fixed_smith" LowRankDle.twoBlocks (Smith.termOptions 2)).run.run 0 = (.ok solver, s') ∧
        solver.Symmetric s' := by
  constructor
  · obtain ⟨solver, s', hmake⟩ := exists_make_dle (α := ℚ) 2 "f" 0
    exact ⟨solver, s', hmake, (symmetric_of_make "f" "simple" .empty 0 s').1 _ solver hmake Nat.two_pos⟩
  · have hvalid : LowRankDle.twoBlocks.Valid := LowRankDle.validate_eq_ok.1 rfl
    have htwo : 2 < 2 ^ 63 := by decide
    obtain ⟨solver, s', hmake⟩ := Smith.exists_make_lowRank (K := ℚ) hvalid htwo "g" 0
    exact ⟨solver, s', hmake, (symmetric_of_make "g" "fixed_smith" _ 0 s').2 _ solver hmake Nat.two_pos⟩

end Solver

end Lyapunov
