/-
The two mixed second derivatives. The reverse derivative of a forward derivative and the forward derivative
of a reverse derivative both pair with directions as the weights do with the second rates of change of the
outputs, in which the order of the directions does not matter; so they agree. What the outer derivative
needs to know of the inner one, the rates of change of the nodes which that creates, are the epsilon parts
of their values over the dual numbers, where the inner derivative is one of the same function.
-/
import Lyapunov.Proofs.Derivative.Agreement
import Lyapunov.Proofs.Derivative.Map
import Lyapunov.Proofs.Derivative.Second

namespace Lyapunov

open Build Finset TrivSqZeroExt

variable {K : Type} [ExactScalar K]

/-! ## Inner products of dual numbers -/

namespace Dense

/-- The epsilon part of an inner product, by the product rule. -/
theorem snd_inner_dual {a da b db : Dense K} (ha : da.shape = a.shape) (hb : db.shape = b.shape) :
    ((dual a da).inner (dual b db)).snd = a.inner db + da.inner b := by
  unfold inner
  rw [rows_eq hb, cols_eq hb, snd_sum, ← sum_add_distrib]
  refine sum_congr rfl fun i _ => ?_
  rw [snd_sum, ← sum_add_distrib]
  refine sum_congr rfl fun j _ => ?_
  rw [snd_mul, fst_get_dual, fst_get_dual, snd_get_dual ha, snd_get_dual hb, smul_eq_mul, op_smul_eq_smul,
    smul_eq_mul]
  ring

/-- Matrices of dual numbers are equal when their parts are. -/
theorem zipWith_dual_inj {as das bs dbs : List (Dense K)} (ha : das.map (·.shape) = as.map (·.shape))
    (hb : dbs.map (·.shape) = bs.map (·.shape)) (h : List.zipWith dual as das = List.zipWith dual bs dbs) :
    as = bs ∧ das = dbs := by
  induction as generalizing das bs dbs with
  | nil =>
    cases List.map_eq_nil_iff.1 ha
    cases bs with
    | nil => exact ⟨rfl, (List.map_eq_nil_iff.1 hb).symm⟩
    | cons b bs =>
      cases dbs with
      | nil => cases hb
      | cons => cases h
  | cons a as ih =>
    cases das with
    | nil => cases ha
    | cons da das =>
      obtain ⟨ha₁, ha⟩ := List.cons.inj ha
      cases bs with
      | nil => cases h
      | cons b bs =>
        cases dbs with
        | nil => cases hb
        | cons db dbs =>
          obtain ⟨hb₁, hb₂⟩ := List.cons.inj hb
          obtain ⟨hhead, htail⟩ := List.cons.inj h
          obtain ⟨rfl, rfl⟩ := eq_of_dual_eq ha₁ hb₁ hhead
          obtain ⟨rfl, rfl⟩ := ih ha hb₂ htail
          exact ⟨rfl, rfl⟩

theorem snd_innerSum_dual {as das bs dbs : List (Dense K)} (ha : das.map (·.shape) = as.map (·.shape))
    (hb : dbs.map (·.shape) = bs.map (·.shape)) :
    (innerSum (List.zipWith dual as das) (List.zipWith dual bs dbs)).snd =
      innerSum as dbs + innerSum das bs := by
  induction as generalizing das bs dbs with
  | nil =>
    cases List.map_eq_nil_iff.1 ha
    exact (add_zero 0).symm
  | cons a as ih =>
    cases das with
    | nil => cases ha
    | cons da das =>
      obtain ⟨ha₁, ha⟩ := List.cons.inj ha
      cases bs with
      | nil =>
        cases List.map_eq_nil_iff.1 hb
        exact (add_zero 0).symm
      | cons b bs =>
        cases dbs with
        | nil => cases hb
        | cons db dbs =>
          obtain ⟨hb₁, hb⟩ := List.cons.inj hb
          rw [List.zipWith_cons_cons, List.zipWith_cons_cons, innerSum_cons, innerSum_cons, innerSum_cons,
            snd_add, ih ha hb, snd_inner_dual ha₁ hb₁]
          ring

end Dense

/-! ## Rates of change at other symbols -/

/-- The rate of change depends on the values and the rates of change of the symbols below alone. -/
theorem Expr.rate_congr {env env' denv denv' : Nat → Dense K} {e : Expr K}
    (h : ∀ x, Below x e → x.isSymbol = true → env x.id = env' x.id ∧ denv x.id = denv' x.id) :
    e.rate env denv = e.rate env' denv' := by
  have hvalue {x : Expr K} (hx : Below x e) : x.valueD env = x.valueD env' := by
    rw [valueD, valueD, value_congr fun y hy hs => (h y (hy.trans hx) hs).1]
  induction e with
  | symbol i name s => exact (h _ (.refl _) rfl).2
  | constant => rfl
  | unary i op x ih =>
    have hx : Below x (.unary i op x) := below_of_operand (List.mem_singleton_self x)
    rw [rate, rate, ih (fun y hy => h y (hy.trans hx)) fun hy => hvalue (hy.trans hx)]
  | binary i op x y ihx ihy =>
    have hx : Below x (.binary i op x y) := .binary_left (.refl x) i op y
    have hy : Below y (.binary i op x y) := .binary_right (.refl y) i op x
    rw [rate, rate, hvalue (.refl _), hvalue hx, hvalue hy,
      ihx (fun z hz => h z (hz.trans hx)) fun hz => hvalue (hz.trans hx),
      ihy (fun z hz => h z (hz.trans hy)) fun hz => hvalue (hz.trans hy)]

namespace Func

/-! ## Arguments of dual numbers -/

/-- The arguments, with those of the direction `u` as their epsilon parts. -/
def dualArguments (args u : List (Argument K)) : List (Argument (DualNumber K)) :=
  List.zipWith (fun a d => .dense (.dual a.toDense d.toDense)) args u

theorem shapes_dualArguments {args u : List (Argument K)} (h : u.map (·.shape) = args.map (·.shape)) :
    (dualArguments args u).map (·.shape) = args.map (·.shape) := by
  induction args generalizing u with
  | nil => rfl
  | cons a args ih =>
    cases u with
    | nil => cases h
    | cons d u =>
      show a.toDense.shape :: (dualArguments args u).map (·.shape) = a.shape :: args.map (·.shape)
      rw [ih (List.cons.inj h).2, a.shape_toDense]

/-- Arguments and a direction for some nodes are arguments for their images. -/
theorem shapes_dualArguments_mapNamed {l : List (String × Expr K)} {args u : List (Argument K)}
    (hargs : args.map (·.shape) = l.map (·.2.shape)) (hu : u.map (·.shape) = l.map (·.2.shape)) :
    (dualArguments args u).map (·.shape) = (mapNamed (inl : K → DualNumber K) l).map (·.2.shape) := by
  rw [shapes_dualArguments (hu.trans hargs.symm), hargs, shapes_mapNamed]

theorem map_toDense_dualArguments (args u : List (Argument K)) :
    (dualArguments args u).map (·.toDense) =
      List.zipWith Dense.dual (args.map (·.toDense)) (u.map (·.toDense)) := by
  rw [dualArguments, List.map_zipWith, List.zipWith_map]
  rfl

theorem getElem?_dualArguments {args u : List (Argument K)} {k : Nat} {a d : Argument K}
    (ha : args[k]? = some a) (hd : u[k]? = some d) :
    (dualArguments args u)[k]? = some (.dense (.dual a.toDense d.toDense)) := by
  rw [dualArguments, List.getElem?_zipWith, ha, hd]

/-- A symbol that is no input has no value. -/
theorem binding_of_forall_ne {α : Type} [Scalar α] {f : Func α} {args : List (Argument α)} {i : Nat}
    (h : ∀ p ∈ f.inputs, p.2.id ≠ i) : f.binding args i = Tape.noValue := by
  unfold binding
  cases hfind : (f.inputs.zip args).find? fun p => p.1.2.id == i with
  | none => rfl
  | some p =>
    have hid := List.find?_some hfind
    have hmem := List.of_mem_zip (List.mem_of_find?_eq_some hfind)
    exact absurd (beq_iff_eq.1 hid) (h p.1 hmem.1)

variable {f : Func K} {f' : Func (DualNumber K)} {args u : List (Argument K)}

/-- The values of the symbols at arguments of dual numbers. -/
theorem binding_dualArguments (hi : f'.inputs = mapNamed inl f.inputs)
    (hargs : args.map (·.shape) = f.inputShapes) (hu : u.map (·.shape) = f.inputShapes) :
    f'.binding (dualArguments args u) = dualEnv (f.binding args) (f.binding u) := by
  funext i
  by_cases h : ∃ p ∈ f.inputs, p.2.id = i
  · obtain ⟨p, hp, rfl⟩ := h
    obtain ⟨k, hk⟩ := List.mem_iff_getElem?.1 hp
    have hlt := (List.getElem?_eq_some_iff.1 hk).1
    have ha : args[k]? = some _ := List.getElem?_eq_getElem (length_of_shapes hargs ▸ hlt)
    have hd : u[k]? = some _ := List.getElem?_eq_getElem (length_of_shapes hu ▸ hlt)
    have hk' : f'.inputs[k]? = some (p.1, p.2.map inl) := by
      rw [hi, mapNamed, List.getElem?_map, hk]
      rfl
    have hbinding := f'.binding_input hk' (getElem?_dualArguments ha hd)
    rw [Expr.id_map] at hbinding
    rw [hbinding, dualEnv, f.binding_input hk ha, f.binding_input hk hd]
    rfl
  · have hne : ∀ p ∈ f.inputs, p.2.id ≠ i := fun p hp hid => h ⟨p, hp, hid⟩
    have hne' : ∀ p ∈ f'.inputs, p.2.id ≠ i := fun p hp => by
      rw [hi] at hp
      obtain ⟨q, hq, rfl⟩ := List.mem_map.1 hp
      rw [Expr.id_map]
      exact hne q hq
    rw [dualEnv, binding_of_forall_ne hne, binding_of_forall_ne hne, binding_of_forall_ne hne']
    exact (Dense.dual_zero _).symm

/-- The function over the dual numbers has a value where the function has one. -/
theorem exists_eval_dual {s : Nat} {values : List (Dense K)} (hf : f.NumberedBelow s)
    (hi : f'.inputs = mapNamed inl f.inputs) (ho : f'.outputs = mapNamed inl f.outputs)
    (hf' : f'.NumberedBelow s) (hv : f.eval args = .ok values) (hu : u.map (·.shape) = f.inputShapes) :
    ∃ values', f'.eval (dualArguments args u) = .ok values' := by
  have hargs := shapes_of_eval hv
  refine exists_eval hf'.isDag ?_ fun y hy => ?_
  · rw [inputShapes, hi]
    exact shapes_dualArguments_mapNamed hargs hu
  · rw [ho] at hy
    obtain ⟨z, hz, rfl⟩ := List.mem_map.1 hy
    have hbound := hf.bound hu (f.output_mem_nodes hz)
    rw [binding_dualArguments hi hargs hu]
    exact ⟨_, ((hf.evaluated hv (f.reachable_output hz)).computes_toDual hbound).value⟩

/-- Seeds that are given arguments and rates of change are given arguments of dual numbers. -/
theorem dualEnv_of_mem_zip {env denv : Nat → Dense K} {seeds : List (String × Expr K)}
    {w dw : List (Argument K)} (hw : ∀ p ∈ seeds.zip w, env p.1.2.id = p.2.toDense)
    (hdw : ∀ p ∈ seeds.zip dw, denv p.1.2.id = p.2.toDense) :
    ∀ p ∈ (mapNamed (inl : K → DualNumber K) seeds).zip (dualArguments w dw),
      dualEnv env denv p.1.2.id = p.2.toDense := by
  intro p hp
  obtain ⟨k, hk⟩ := List.mem_iff_getElem?.1 hp
  obtain ⟨hseed, harg⟩ := List.getElem?_zip_eq_some.1 hk
  rw [mapNamed, List.getElem?_map, Option.map_eq_some_iff] at hseed
  obtain ⟨q, hq, hpq⟩ := hseed
  rw [dualArguments, List.getElem?_zipWith_eq_some] at harg
  obtain ⟨a, d, ha, hd, hpa⟩ := harg
  rw [← hpq, ← hpa, Expr.id_map, dualEnv,
    hw (q, a) (List.mem_iff_getElem?.2 ⟨k, List.getElem?_zip_eq_some.2 ⟨hq, ha⟩⟩),
    hdw (q, d) (List.mem_iff_getElem?.2 ⟨k, List.getElem?_zip_eq_some.2 ⟨hq, hd⟩⟩)]
  rfl

/-! ## Rates of change of the outputs -/

section Outputs

variable {s : Nat} {values : List (Dense K)} {v du : List (Argument K)}

/-- The second rates of change of the outputs: those of the rates of change in the direction `u` when the
arguments change at the rates `v` and the direction at the rates `du`. -/
def mixedRates (f : Func K) (args u v du : List (Argument K)) : List (Dense K) :=
  f.outputs.map (·.2.mixedRate (f.binding args) (f.binding u) (f.binding v) (f.binding du))

variable (hf : f.NumberedBelow s) (hv : f.eval args = .ok values) (hu : u.map (·.shape) = f.inputShapes)
  (hvs : v.map (·.shape) = f.inputShapes) (hdu : du.map (·.shape) = f.inputShapes)

include hf hv hu

include hvs in
/-- The order of the directions does not matter. -/
theorem mixedRates_comm : f.mixedRates args u v du = f.mixedRates args v u du :=
  List.map_congr_left fun _ hy => (hf.evaluated hv (f.reachable_output hy)).mixedRate_comm
    (hf.bound hu (f.output_mem_nodes hy)) (hf.bound hvs (f.output_mem_nodes hy))

include hdu in
theorem shapes_mixedRates (v : List (Argument K)) : (f.mixedRates args u v du).map (·.shape) =
    (f.outputs.map (·.2.rate (f.binding args) (f.binding u))).map (·.shape) := by
  rw [mixedRates, List.map_map, List.map_map]
  refine List.map_congr_left fun y hy => ?_
  have heval := hf.evaluated hv (f.reachable_output hy)
  have hbound {x : List (Argument K)} (hx : x.map (·.shape) = f.inputShapes) :=
    hf.bound hx (f.output_mem_nodes hy)
  exact (heval.shape_mixedRate (hbound hdu)).trans (heval.shape_rate (hbound hu)).symm

include hvs hdu in
/-- Over the dual numbers the rates of change of the outputs have the second ones as their epsilon parts. -/
theorem map_rate_dual (hi : f'.inputs = mapNamed inl f.inputs) (ho : f'.outputs = mapNamed inl f.outputs) :
    f'.outputs.map (·.2.rate (f'.binding (dualArguments args v)) (f'.binding (dualArguments u du))) =
      List.zipWith Dense.dual (f.outputs.map (·.2.rate (f.binding args) (f.binding u)))
        (f.mixedRates args u v du) := by
  rw [ho, mapNamed, mixedRates, List.map_map, List.zipWith_map, List.zipWith_self,
    binding_dualArguments hi (shapes_of_eval hv) hvs, binding_dualArguments hi hu hdu]
  refine List.map_congr_left fun y hy => ?_
  have hbound {x : List (Argument K)} (hx : x.map (·.shape) = f.inputShapes) :=
    hf.bound hx (f.output_mem_nodes hy)
  exact (hf.evaluated hv (f.reachable_output hy)).rate_toDual (hbound hu) (hbound hvs) (hbound hdu)

end Outputs

/-! ## Rates of change of the nodes of a derivative -/

section Rates

variable {s : Nat} {values : List (Dense K)} {v : List (Argument K)} {env denv : Nat → Dense K}

/-- Nodes with values and rates of change have these as values over the dual numbers. -/
theorem map_valueD_dual {l : List (String × Expr K)}
    (h : ∀ o ∈ l, o.2.Evaluated env ∧ o.2.Bound denv) :
    (mapNamed inl l).map (·.2.valueD (dualEnv env denv)) =
      List.zipWith Dense.dual (l.map (·.2.valueD env)) (l.map (·.2.rate env denv)) := by
  rw [mapNamed, List.map_map, List.zipWith_map, List.zipWith_self]
  exact List.map_congr_left fun o ho => (h o ho).1.valueD_toDual (h o ho).2

theorem shapes_rate {l : List (String × Expr K)} (h : ∀ o ∈ l, o.2.Evaluated env ∧ o.2.Bound denv) :
    (l.map (·.2.rate env denv)).map (·.shape) = (l.map (·.2.valueD env)).map (·.shape) := by
  rw [List.map_map, List.map_map]
  exact List.map_congr_left fun o ho => (h o ho).1.shape_rate (h o ho).2

variable (hf : f.NumberedBelow s) (hv : f.eval args = .ok values) (hvs : v.map (·.shape) = f.inputShapes)
  (henv : ∀ e ∈ nodesOf f.inputs, env e.id = f.binding args e.id)
  (hdenv : ∀ e ∈ nodesOf f.inputs, denv e.id = f.binding v e.id)

include hf hv hvs henv hdenv

/-- The function over the dual numbers, with a value at the arguments that have `v` as their epsilon
parts. -/
theorem exists_dual : ∃ (f' : Func (DualNumber K)) (values' : List (Dense (DualNumber K))),
    f'.inputs = mapNamed inl f.inputs ∧ f'.outputs = mapNamed inl f.outputs ∧ f'.NumberedBelow s ∧
      f'.eval (dualArguments args v) = .ok values' ∧
      ∀ e ∈ nodesOf f'.inputs, dualEnv env denv e.id = f'.binding (dualArguments args v) e.id := by
  obtain ⟨f', hi, ho, hf'⟩ := hf.exists_map (inl : K → DualNumber K)
  obtain ⟨values', hv'⟩ := exists_eval_dual hf hi ho hf' hv hvs
  refine ⟨f', values', hi, ho, hf', hv', ?_⟩
  rw [hi, binding_dualArguments hi (shapes_of_eval hv) hvs]
  rintro _ ⟨p, hp, rfl⟩
  obtain ⟨q, hq, rfl⟩ := List.mem_map.1 hp
  rw [Expr.id_map, dualEnv, dualEnv, henv _ ⟨q, hq, rfl⟩, hdenv _ ⟨q, hq, rfl⟩]

/-- The rates of change of the results of a forward derivative are the second rates of change of the
outputs. -/
theorem forwardAdded_rates (n : Nat) :
    List.Forall₂ (fun _ r => ∀ u du : List (Argument K), u.map (·.shape) = f.inputShapes →
        du.map (·.shape) = f.inputShapes → (∀ p ∈ r.1.zip u, env p.1.2.id = p.2.toDense) →
        (∀ p ∈ r.1.zip du, denv p.1.2.id = p.2.toDense) → (∀ o ∈ r.2, o.2.Evaluated env ∧ o.2.Bound denv) →
        r.2.map (·.2.rate env denv) = f.mixedRates args u v du)
      (List.range n) ((f.forwardAdded n).run s).1 := by
  obtain ⟨f', values', hi, ho, hf', hv', henv'⟩ := exists_dual hf hv hvs henv hdenv
  have hadded := forwardAdded_values hf' hv' henv' n
  rw [forwardAdded_map hi ho (inl_zero K), List.forall₂_map_right_iff] at hadded
  refine hadded.imp fun d r hr u du hu hdu hbind hdbind hresults => ?_
  have hinput : (dualArguments u du).map (·.shape) = f'.inputShapes := by
    rw [inputShapes, hi]
    exact shapes_dualArguments_mapNamed hu hdu
  have hcomputes := hr (dualArguments u du) hinput (dualEnv_of_mem_zip hbind hdbind)
  -- the results are the rates of change over the dual numbers
  have hvalues : (mapNamed inl r.2).map (·.2.valueD (dualEnv env denv)) =
      f'.outputs.map (·.2.rate (f'.binding (dualArguments args v)) (f'.binding (dualArguments u du))) := by
    rw [← List.forall₂_eq_eq_eq, List.forall₂_map_left_iff, List.forall₂_map_right_iff]
    exact hcomputes.flip.imp fun o y hy => Expr.valueD_eq _ hy.2.value
  rw [map_valueD_dual hresults, map_rate_dual hf hv hu hvs hdu hi ho] at hvalues
  exact (Dense.zipWith_dual_inj (shapes_rate hresults) (shapes_mixedRates hf hv hu hdu v) hvalues).2

/-- The results of a reverse derivative and their rates of change pair with directions as the weights and
their rates of change do with the second and the first rates of change of the outputs. -/
theorem reverseAdded_rates (n : Nat) :
    List.Forall₂ (fun _ r => ∀ w dw : List (Argument K), w.map (·.shape) = f.outputShapes →
        dw.map (·.shape) = f.outputShapes → (∀ p ∈ r.1.zip w, env p.1.2.id = p.2.toDense) →
        (∀ p ∈ r.1.zip dw, denv p.1.2.id = p.2.toDense) → (∀ o ∈ r.2, o.2.Evaluated env ∧ o.2.Bound denv) →
        ∀ u du : List (Argument K), u.map (·.shape) = f.inputShapes → du.map (·.shape) = f.inputShapes →
          Dense.innerSum (w.map (·.toDense)) (f.mixedRates args u v du) +
              Dense.innerSum (dw.map (·.toDense)) (f.outputs.map (·.2.rate (f.binding args) (f.binding u))) =
            Dense.innerSum (r.2.map (·.2.valueD env)) (du.map (·.toDense)) +
              Dense.innerSum (r.2.map (·.2.rate env denv)) (u.map (·.toDense)))
      (List.range n) ((f.reverseAdded n).run s).1 := by
  obtain ⟨f', values', hi, ho, hf', hv', henv'⟩ := exists_dual hf hv hvs henv hdenv
  have hadded := reverseAdded_values hf' hv' henv' n
  rw [reverseAdded_map hi ho (inl_zero K), List.forall₂_map_right_iff] at hadded
  refine hadded.imp fun d r hr w dw hw hdw hbind hdbind hresults u du hu hdu => ?_
  have hinput : (dualArguments u du).map (·.shape) = f'.inputShapes := by
    rw [inputShapes, hi]
    exact shapes_dualArguments_mapNamed hu hdu
  have houtput : (dualArguments w dw).map (·.shape) = f'.outputShapes := by
    rw [outputShapes, ho]
    exact shapes_dualArguments_mapNamed hw hdw
  have hchecked : ∀ o ∈ (Added.map (inl : K → DualNumber K) r).2, o.2.Checked := fun o hmem => by
    obtain ⟨q, hq, rfl⟩ := List.mem_map.1 hmem
    exact (hresults q hq).1.checked.map
  have hadjoint := hr (dualArguments w dw) houtput (dualEnv_of_mem_zip hbind hdbind) hchecked
  -- the epsilon part of the equation over the dual numbers, by the product rule
  have hpairing := congrArg snd (hadjoint.pairing (dualArguments u du) hinput)
  rw [map_toDense_dualArguments, map_toDense_dualArguments, map_rate_dual hf hv hu hvs hdu hi ho, Added.map,
    map_valueD_dual hresults, Dense.snd_innerSum_dual _ (shapes_mixedRates hf hv hu hdu v),
    Dense.snd_innerSum_dual (shapes_rate hresults)] at hpairing
  · exact hpairing
  · rw [← map_shape_toDense rfl, ← map_shape_toDense rfl, hdu, hu]
  · rw [← map_shape_toDense rfl, ← map_shape_toDense rfl, hdw, hw]

end Rates

end Func

end Lyapunov
