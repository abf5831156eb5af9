/-
The gradients of solvers of the full equation. A reverse derivative in one direction gives, besides the
answer, the gradients of its inner product with the seed. By the direct method these are `2 Q A P` for `A`
and `Q` for `V`, where `Q` solves the equation with the transpose of `A` for the seed; by Smith's method they
are sums over the terms of the series.
-/
import Lyapunov.Proofs.Equation.Gradient
import Lyapunov.Proofs.Solver.Kronecker

open Kronecker

namespace Lyapunov

open Build Lyapunov.Dense Finset Matrix

variable {K : Type} [ExactScalar K] {n : Nat}

/-! ## Systems over the dual numbers -/

/-- The system over the dual numbers has the solution of the equation as its only solution. -/
theorem Expr.solvesAs_dualComputes (env : Nat → Dense (DualNumber K))
    {A W P : Matrix (Fin n) (Fin n) (DualNumber K)} (hA : IsUnit (1 - A ⊗ₖ A).det)
    (hP : P = A * P * Aᵀ + W) : SolvesAs (Expr.DualComputes env) A W P where
  kron i _ hx := ⟨by rw [shape_binary, hx.shape]; rfl, .kron i hx.value hx.value⟩
  solve i x y hx hy := by
    refine ⟨by rw [shape_binary, hx.shape, hy.shape]; rfl, .solve i hx.value hy.value rfl
      (lyapunovSystem_mul_eq_iff.2 hP) fun w hw hmul => ?_⟩
    obtain ⟨X, rfl⟩ := exists_vec hw
    rw [(existsUnique_solution hA W).unique (lyapunovSystem_mul_eq_iff.1 hmul) hP]

/-! ## Reverse derivatives -/

namespace Dle

/-- What the method builds from data that change has a rate of change whose inner product with `W` is that
of the gradients with the rates of change of the data. -/
def HasGradient (build : DleInputs K → Build (Expr K)) (A V W gradA gradV : Matrix (Fin n) (Fin n) K) : Prop :=
  ∀ (env : Nat → Dense (DualNumber K)) (A' V' : Matrix (Fin n) (Fin n) (DualNumber K)), rePart A' = A →
    rePart V' = V → ∃ P', GrowsFrom (Expr.DualComputes env) A' V' build
        (Reads (Expr.DualComputes env) (ofMatrix P')) ∧
      frobenius W (epPart P') = frobenius gradA (epPart A') + frobenius gradV (epPart V')

variable {name : String} {s s' r r' : Nat} {f g : Func K} {build : DleInputs K → Build (Expr K)}
  (hf : Problem.IsFunction name (square n) build s f s')

include hf

theorem exists_reverse (hr : s' ≤ r) : ∃ g r', (f.reverse 1).run.run r = (.ok g, r') :=
  (hf.numbered.mono hr).exists_reverse hf.contractible (untagged hf _) 1

variable (hr : s' ≤ r) (hg : (f.reverse 1).run.run r = (.ok g, r'))

include hr hg

theorem names_reverse : g.inputNames = ["a", "v", "adj0_p"] ∧ g.outputNames = ["p", "adj0_a", "adj0_v"] := by
  obtain ⟨hi, ho⟩ := Func.names_reverse (hf.numbered.mono hr) hg
  rw [inputNames hf, outputNames hf] at hi ho
  exact ⟨hi, ho⟩

variable {A V W P gradA gradV : Matrix (Fin n) (Fin n) K} {args : List (Argument K)} {w : Argument K}
  (hargs : args.map (·.toDense) = [ofMatrix A, ofMatrix V]) (hw : w.toDense = ofMatrix W)
  (hvalue : f.eval args = .ok [ofMatrix P]) (hgradient : HasGradient build A V W gradA gradV)

include hargs hvalue hgradient

omit hr hg in
/-- The rates of change of the outputs in a direction, weighted by `W`. -/
theorem innerSum_rates {u : List (Argument K)} (hu : u.map (·.shape) = f.inputShapes) :
    innerSum [ofMatrix W] (f.outputs.map (·.2.rate (f.binding args) (f.binding u))) =
      innerSum [ofMatrix gradA, ofMatrix gradV] (u.map (·.toDense)) := by
  have hshapes := map_shape_toDense hargs
  rw [inputShapes hf] at hu
  obtain ⟨B, D, hBD⟩ := exists_pair ((map_shape_toDense rfl).symm.trans hu)
  obtain ⟨A', rfl, rfl⟩ := exists_parts A B
  obtain ⟨V', rfl, rfl⟩ := exists_parts V D
  obtain ⟨P', hgrows, hrate⟩ := hgradient (f.dualBinding args u) A' V' rfl rfl
  have hduals : ((args.zip u).map fun x => dual x.1.toDense x.2.toDense) = [ofMatrix A', ofMatrix V'] := by
    rw [map_zip_dual, hargs, hBD, ← dual_ofMatrix A', ← dual_ofMatrix V']
    rfl
  have hrates := hf.built.namedRates_eq hshapes hu hvalue
    (hgrows.declared (hduals ▸ hf.built.forall₂_dualComputes hshapes hu))
  have hep : f.outputs.map (·.2.rate (f.binding args) (f.binding u)) = [ofMatrix (epPart P')] := by
    have hsnd := congrArg (List.map Prod.snd) hrates
    rw [Func.namedRates, List.map_map, outputNames hf, ep_ofMatrix] at hsnd
    exact hsnd
  rw [hep, hBD, innerSum_cons, innerSum_cons, innerSum_cons, inner_ofMatrix, inner_ofMatrix, inner_ofMatrix, hrate]
  exact add_assoc _ _ _

include hw in
/-- The reverse derivative gives the answer and the gradients. -/
theorem eval_reverse : g.eval (args ++ [w]) = .ok [ofMatrix P, ofMatrix gradA, ofMatrix gradV] := by
  have hf' := hf.numbered.mono hr
  have hseed : [w].map (·.toDense) = [ofMatrix W] := congrArg (fun d => [d]) hw
  have hshape : [w].map (·.shape) = f.outputShapes := (map_shape_toDense hseed).trans hf.outputShapes.symm
  have hseeds : ∀ w' ∈ [[w]], w'.map (·.shape) = f.outputShapes := List.forall_mem_singleton.2 hshape
  obtain ⟨out, hout, hadjoint⟩ := Func.reverse_values hf' hg hvalue (List.length_singleton) hseeds
  obtain ⟨dxs, hdxs, hpair⟩ := hadjoint 0 [w] rfl
  obtain ⟨hresults, hshapes⟩ := Func.map_output?_eq hdxs
  have hgradients : dxs = [ofMatrix gradA, ofMatrix gradV] := by
    refine Func.eq_of_innerSum_toDense (hshapes.trans (inputShapes hf)) fun u hu => ?_
    have hu := hu.trans hshapes
    rw [← hpair u hu, ← innerSum_rates hf hargs hvalue hgradient hu, ← hw]
    rfl
  rw [inputNames hf, hgradients] at hresults
  -- the first result is that of the function itself
  have hanswer : g.output? out "p" = some (ofMatrix P) := by
    rw [(hf'.extended_reverse hg).output hvalue hout "p" (by rw [outputNames hf]; decide), Func.output?,
      Func.outputIndex?, outputNames hf]
    rfl
  obtain ⟨-, houtputs⟩ := names_reverse hf hr hg
  have hall := g.map_output? (Func.length_eval (hf'.extended_reverse hg).isDag hout)
  rw [houtputs] at hall
  refine hout.trans (congrArg Except.ok (List.map_injective_iff.2 (Option.some_injective _) ?_))
  exact hall.symm.trans (congrArg₂ List.cons hanswer hresults)

end Dle

/-! ## The two methods -/

section Methods

variable {A V W P Q : Matrix (Fin n) (Fin n) K}

/-- The direct method has the gradients `2 Q A P` and `Q`. -/
theorem Kronecker.hasGradient (hA : (1 - A ⊗ₖ A).det ≠ 0) (hP : P = A * P * Aᵀ + symmetricPart K V)
    (hQ : Q = Aᵀ * Q * A + symmetricPart K W) :
    Dle.HasGradient (fun i => dle i.a i.v) A V W (2 • (Q * A * P)) Q := by
  rintro env A' V' rfl rfl
  have hA' := (isUnit_det_iff A').2 hA
  obtain ⟨P', hP', -⟩ := existsUnique_solution hA' (symmetricPart K V')
  -- the real part of the solution is the solution for the real parts
  have hre : rePart P' = P := by
    refine (existsUnique_solution hA.isUnit _).unique ?_ hP
    conv_lhs => rw [hP']
    rw [map_add, map_mul, map_mul, rePart_transpose, rePart_symmetricPart]
  refine ⟨P', fun S i ha hv => ?_, ?_⟩
  · exact (growsFrom_dle (Expr.reading_dualComputes env) (Expr.solvesAs_dualComputes env hA' hP') S i ha hv).imp
      fun _ _ _ hy => hy.1
  · rw [frobenius_epPart_solution hA hP' hQ, hre]

/-- Smith's method has the gradients of the partial sum. -/
theorem Smith.hasGradient (settings : Settings) (A V W : Matrix (Fin n) (Fin n) K) :
    Dle.HasGradient (fun i => dle i.a i.v settings) A V W
      (2 • partialSumGradient A (symmetricPart K V) (symmetricPart K W) settings.terms)
      (∑ i ∈ range settings.terms, (A ^ i)ᵀ * symmetricPart K W * A ^ i) := by
  rintro env A' V' rfl rfl
  refine ⟨_, growsFrom_dle (Expr.reading_dualComputes env) A' V' settings, ?_⟩
  rw [frobenius_epPart_partialSum, rePart_symmetricPart]

end Methods

/-! ## Solvers -/

theorem exists_seed {args : List (Argument K)} {a v w : Dense K} (h : args.map (·.toDense) = [a, v, w]) :
    ∃ (data : List (Argument K)) (seed : Argument K), args = data ++ [seed] ∧
      data.map (·.toDense) = [a, v] ∧ seed.toDense = w := by
  have happend : args.map (·.toDense) = [a, v] ++ [w] := h
  obtain ⟨data, rest, rfl, hdata, hrest⟩ := List.map_eq_append_iff.1 happend
  obtain ⟨seed, rfl, hseed⟩ := List.map_eq_singleton_iff.1 hrest
  exact ⟨data, seed, rfl, hdata, hseed⟩

/-- The function has reverse derivatives in one direction, from nodes with the numbers `s'` on, with the
names of the equation and with the results. -/
def Func.HasGradients (f : Func K) (s' : Nat) (results : Func K → Prop) : Prop :=
  ∀ r, s' ≤ r → ∃ g r', (f.reverse 1).run.run r = (.ok g, r') ∧
    g.inputNames = ["a", "v", "adj0_p"] ∧ g.outputNames = ["p", "adj0_a", "adj0_v"] ∧ results g

theorem Func.HasGradients.imp {f : Func K} {s' : Nat} {results results' : Func K → Prop}
    (h : f.HasGradients s' results) (himp : ∀ g, results g → results' g) : f.HasGradients s' results' := by
  intro r hr
  obtain ⟨g, r', hg, hi, ho, hresults⟩ := h r hr
  exact ⟨g, r', hg, hi, ho, himp g hresults⟩

theorem Dle.hasGradients {name : String} {s s' : Nat} {f : Func K} {build : DleInputs K → Build (Expr K)}
    (hf : Problem.IsFunction name (square n) build s f s') {results : Func K → Prop}
    (h : ∀ r g r', s' ≤ r → (f.reverse 1).run.run r = (.ok g, r') → results g) :
    f.HasGradients s' results := by
  intro r hr
  obtain ⟨g, r', hg⟩ := exists_reverse hf hr
  obtain ⟨hi, ho⟩ := names_reverse hf hr hg
  exact ⟨g, r', hg, hi, ho, h r g r' hr hg⟩

/-- The reverse derivative of a solver in one direction gives the answer and the gradients for a seed `W`.
By the direct method these are `2 Q A P` and `Q`, for the solution `P` and the only solution `Q` of the
equation with the transpose of `A`; by Smith's method they are sums over the terms. -/
theorem gradient_spec (n : Nat) (name : String) (s : Nat) :
    (0 < n → ∃ (f : Func K) (s' : Nat), Kronecker.IsDleFunction (.square n) name s f s' ∧
      f.HasGradients s' fun g => ∀ (A V W : Matrix (Fin n) (Fin n) K) (args : List (Argument K)),
        args.map (·.toDense) = [ofMatrix A, ofMatrix V, ofMatrix W] → (1 - A ⊗ₖ A).det ≠ 0 →
          (∃! P, P = A * P * Aᵀ + symmetricPart K V) ∧ (∃! Q, Q = Aᵀ * Q * A + symmetricPart K W) ∧
            ∀ P Q, P = A * P * Aᵀ + symmetricPart K V → Q = Aᵀ * Q * A + symmetricPart K W →
              g.eval args = .ok [ofMatrix P, ofMatrix (2 • (Q * A * P)), ofMatrix Q]) ∧
    ∀ settings : Smith.Settings, ∃ (f : Func K) (s' : Nat), Smith.IsDleFunction n settings name s f s' ∧
      f.HasGradients s' fun g => ∀ (A V W : Matrix (Fin n) (Fin n) K) (args : List (Argument K)),
        args.map (·.toDense) = [ofMatrix A, ofMatrix V, ofMatrix W] →
          g.eval args = .ok [ofMatrix (partialSum A (symmetricPart K V) settings.terms),
            ofMatrix (2 • partialSumGradient A (symmetricPart K V) (symmetricPart K W) settings.terms),
            ofMatrix (∑ i ∈ range settings.terms, (A ^ i)ᵀ * symmetricPart K W * A ^ i)] := by
  refine ⟨fun hn => ?_, fun settings => ?_⟩
  · obtain ⟨f, s', hf⟩ := Kronecker.exists_isFunction_dle (K := K) hn name s
    refine ⟨f, s', Kronecker.isDleFunction_of hf, Dle.hasGradients hf fun r g r' hr hg A V W args hargs hA => ?_⟩
    obtain ⟨data, seed, rfl, hdata, hseed⟩ := exists_seed hargs
    refine ⟨existsUnique_solution hA.isUnit _, existsUnique_adjoint hA _, fun P Q hP hQ => ?_⟩
    exact Dle.eval_reverse hf hr hg hdata hseed (Kronecker.eval_dle hf hdata hn hA hP)
      (Kronecker.hasGradient hA hP hQ)
  · obtain ⟨f, s', hf⟩ := Smith.exists_isFunction_dle (K := K) n settings name s
    refine ⟨f, s', Smith.isDleFunction_of hf, Dle.hasGradients hf fun r g r' hr hg A V W args hargs => ?_⟩
    obtain ⟨data, seed, rfl, hdata, hseed⟩ := exists_seed hargs
    exact Dle.eval_reverse hf hr hg hdata hseed (Smith.eval_dle hf hdata) (Smith.hasGradient settings A V W)

/-- The gradients for numbers, by the direct method and for two terms of the series. -/
theorem gradient_numbers :
    (∃ (f : Func ℚ) (s' : Nat), Kronecker.IsDleFunction (.square 1) "f" 0 f s' ∧
      Solver.Makes "f" "simple" (Dle.square 1) .empty 0 f s' ∧ f.HasGradients s' fun g =>
        g.eval [.scalar 2, .scalar 3, .scalar 5] = .ok [.ofScalar (-1), .ofScalar (20 / 3), .ofScalar (-5 / 3)]) ∧
    ∃ (f : Func ℚ) (s' : Nat), Smith.IsDleFunction 1 ⟨1, false⟩ "f" 0 f s' ∧ f.HasGradients s' fun g =>
      g.eval [.scalar 2, .scalar 3, .scalar 5] = .ok [.ofScalar 15, .ofScalar 60, .ofScalar 25] := by
  obtain ⟨hdirect, hsmith⟩ := gradient_spec (K := ℚ) 1 "f" 0
  have hargs : ([.scalar 2, .scalar 3, .scalar 5] : List (Argument ℚ)).map (·.toDense) =
      [ofMatrix !![2], ofMatrix !![3], ofMatrix !![5]] := by
    simp only [← ofScalar_eq_ofMatrix]
    rfl
  constructor
  · obtain ⟨f, s', hf, hgradients⟩ := hdirect Nat.one_pos
    refine ⟨f, s', hf, hf.makes _ Kronecker.accepted_empty, hgradients.imp fun g heval => ?_⟩
    obtain ⟨-, -, hvalue⟩ := heval !![2] !![3] !![5] _ hargs (by decide +kernel)
    have hA : 2 • ((!![-5 / 3] : Matrix (Fin 1) (Fin 1) ℚ) * !![2] * !![-1]) = !![20 / 3] := by decide +kernel
    rw [hvalue !![-1] !![-5 / 3] (by decide +kernel) (by decide +kernel), hA]
    simp only [ofScalar_eq_ofMatrix]
  · obtain ⟨f, s', hf, hgradients⟩ := hsmith ⟨1, false⟩
    refine ⟨f, s', hf, hgradients.imp fun g heval => ?_⟩
    have hP : partialSum (!![2] : Matrix (Fin 1) (Fin 1) ℚ) (symmetricPart ℚ !![3])
        (Smith.Settings.terms ⟨1, false⟩) = !![15] := by decide +kernel
    have hA : 2 • partialSumGradient (!![2] : Matrix (Fin 1) (Fin 1) ℚ) (symmetricPart ℚ !![3])
        (symmetricPart ℚ !![5]) (Smith.Settings.terms ⟨1, false⟩) = !![60] := by decide +kernel
    have hV : ∑ i ∈ range (Smith.Settings.terms ⟨1, false⟩), ((!![2] : Matrix (Fin 1) (Fin 1) ℚ) ^ i)ᵀ *
        symmetricPart ℚ !![5] * !![2] ^ i = !![25] := by decide +kernel
    rw [heval !![2] !![3] !![5] _ hargs, hP, hA, hV]
    simp only [ofScalar_eq_ofMatrix]

end Lyapunov
