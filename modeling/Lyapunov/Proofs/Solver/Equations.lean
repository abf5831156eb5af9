/-
The functions of the two classes of equations. What a method builds from the data, however they are read,
decides whether it has a function, and what the function computes for given matrices.
-/
import Lyapunov.Proofs.Derivative.Nesting
import Lyapunov.Proofs.Equation.Data
import Lyapunov.Proofs.Solver.Function

namespace Lyapunov

open Build Lyapunov.Dense Matrix

/-! ## Arguments as matrices -/

/-- Arguments with a direction have their own shapes. -/
theorem map_shape_duals {K : Type} [CommRing K] {args u : List (Argument K)}
    (h : args.map (·.shape) = u.map (·.shape)) :
    ((args.zip u).map fun x => Dense.dual x.1.toDense x.2.toDense).map (·.shape) = args.map (·.shape) := by
  have hlength : args.length ≤ u.length := by simpa using (congrArg List.length h).le
  calc ((args.zip u).map fun x => Dense.dual x.1.toDense x.2.toDense).map (·.shape)
      = ((args.zip u).map Prod.fst).map (·.shape) := by
        rw [List.map_map, List.map_map]
        exact List.map_congr_left fun x _ => x.1.shape_toDense
    _ = args.map (·.shape) := by rw [List.map_fst_zip hlength]

theorem map_zip_dual {K : Type} [CommRing K] (args u : List (Argument K)) :
    ((args.zip u).map fun x => Dense.dual x.1.toDense x.2.toDense) =
      List.zipWith Dense.dual (args.map (·.toDense)) (u.map (·.toDense)) := by
  rw [List.zipWith_map, List.zip, List.map_zipWith]

/-- Two square matrices of one size. -/
theorem exists_pair {R : Type} [CommRing R] {n : Nat} {ds : List (Dense R)}
    (h : ds.map (·.shape) = [.square n, .square n]) :
    ∃ A V : Matrix (Fin n) (Fin n) R, ds = [ofMatrix A, ofMatrix V] := by
  obtain ⟨a, ds, rfl, ha, h⟩ := List.map_eq_cons_iff.1 h
  obtain ⟨v, ds, rfl, hv, h⟩ := List.map_eq_cons_iff.1 h
  obtain rfl := List.map_eq_nil_iff.1 h
  exact ⟨a.toMatrix n n, v.toMatrix n n, by rw [ofMatrix_toMatrix ha, ofMatrix_toMatrix hv]⟩

variable {K : Type} {s : Nat}

/-! ## The full equation -/

namespace Dle

variable {n : Nat} {build : DleInputs K → Build (Expr K)}

/-- From data that are read as `A` and `V` the method grows `Q`. -/
def GrowsFrom {R : Type} [CommRing R] (ρ : Expr K → Dense R → Prop) (A V : Matrix (Fin n) (Fin n) R)
    (build : DleInputs K → Build (Expr K)) (Q : Set (Expr K) → Expr K → Prop) : Prop :=
  ∀ (S : Set (Expr K)) (i : DleInputs K), Reads ρ (ofMatrix A) S i.a → Reads ρ (ofMatrix V) S i.v →
    Grows (Readable ρ) S (build i) Q

theorem GrowsFrom.declared {R : Type} [CommRing R] {ρ : Expr K → Dense R → Prop}
    {A V : Matrix (Fin n) (Fin n) R} {Q : Set (Expr K) → Expr K → Prop} (h : GrowsFrom ρ A V build Q)
    (hd : List.Forall₂ (fun p d => ρ p.2 d) (Problem.declared K (square n) s).1.2 [ofMatrix A, ofMatrix V]) :
    Grows (Readable ρ) (nodesOf (Problem.declared K (square n) s).1.2)
      (build (Problem.declared K (square n) s).1.1) Q := by
  obtain ⟨ha, hv⟩ := reads_declare (square n) s hd
  exact h _ _ ha hv

variable [ExactScalar K] {A V P : Matrix (Fin n) (Fin n) K} {name : String} {s' : Nat} {f : Func K}
  {args : List (Argument K)}

/-- A method that builds a square matrix from nodes that fit has a function. -/
theorem exists_isFunction (name : String) (s : Nat) (hm : ∀ T : Set (Expr K),
      GrowsFrom (Expr.FormedAs T) A V build (Reads (Expr.FormedAs T) (ofMatrix P))) :
    ∃ f s', Problem.IsFunction name (square n) build s f s' := by
  have hdeclared : Declared (Problem.declared K (square n) s).1.2 (Problem.declared K (square n) s).2 :=
    declared_declare (square n) s
  have hsymbols := hdeclared.forall₂_formedAs [ofMatrix A, ofMatrix V] rfl
  exact Problem.exists_isFunction (validate_eq_ok.2 rfl) hdeclared rfl ((hm _).declared hsymbols) name

section Names

variable (h : Problem.IsFunction name (square n) build s f s')

include h

theorem inputNames : f.inputNames = ["a", "v"] := by
  rw [Func.inputNames, h.built.inputs]
  rfl

theorem inputShapes : f.inputShapes = [.square n, .square n] := by
  rw [Func.inputShapes, h.built.inputs]
  rfl

theorem outputNames : f.outputNames = ["p"] := by
  rw [Func.outputNames, h.built.outputs]
  rfl

theorem untagged (mode : Mode) : f.Untagged mode := by
  rw [Func.Untagged, inputNames h, outputNames h]
  cases mode <;> decide

end Names

variable (h : Problem.IsFunction name (square n) build s f s')
  (hargs : args.map (·.toDense) = [ofMatrix A, ofMatrix V])

include h hargs

/-- The value of the function is what the method builds from the values of the data. -/
theorem eval_eq_ok (hm : GrowsFrom (Expr.Computes (f.binding args)) A V build
      (Reads (Expr.Computes (f.binding args)) (ofMatrix P))) :
    f.eval args = .ok [ofMatrix P] := by
  have hshapes := map_shape_toDense hargs
  refine h.built.eval_eq_ok hshapes (hm.declared ?_)
  rw [← hargs]
  exact h.built.forall₂_computes hshapes

/-- The function fails with the error that nodes fail with, if there is one that fails. -/
theorem eval_eq_error {err : Error} {Q : Expr K → Prop}
    (hm : GrowsFrom (Expr.ComputesOr (f.binding args) err) A V build fun S y =>
      Reads (Expr.ComputesOr (f.binding args) err) (ofMatrix P) S y ∧ Q y)
    (hQ : ∀ y, Q y → ∃ x, Expr.Below x y ∧ x.value (f.binding args) = .error err) :
    f.eval args = .error err := by
  have hshapes := map_shape_toDense hargs
  refine h.built.eval_eq_error hshapes (hm.declared ?_) hQ
  rw [← hargs]
  exact (h.built.forall₂_computes hshapes).imp fun p d hd => ⟨hd.shape, .inl hd.value⟩

end Dle

/-! ## The low-rank equation -/

namespace LowRankDle

variable {e : LowRankDle} {build : LowRankInputs K → Build (Expr K)}

/-- From symbols that are read as the data the method grows `Q`. -/
def GrowsFrom {R : Type} [CommRing R] (ρ : Expr K → Dense R → Prop) (d : Data R e) (s : Nat)
    (build : LowRankInputs K → Build (Expr K)) (Q : Set (Expr K) → Expr K → Prop) : Prop :=
  (Problem.declared K e s).1.1.ReadAs ρ (nodesOf (Problem.declared K e s).1.2) d.matrix d.v d.c d.h →
    Grows (Readable ρ) (nodesOf (Problem.declared K e s).1.2) (build (Problem.declared K e s).1.1) Q

variable [ExactScalar K] {d : Data K e} {P : Matrix (Fin e.a.rows) (Fin e.a.rows) K} {name : String}
  {s' : Nat} {f : Func K} {args : List (Argument K)}

/-- A method that builds an answer from nodes that fit has a function. -/
theorem exists_isFunction (he : e.Valid) (name : String) (s : Nat)
    (hm : ∀ T : Set (Expr K), GrowsFrom (Expr.FormedAs T) d s build (Reads (Expr.FormedAs T) (d.answer P))) :
    ∃ f s', Problem.IsFunction name e build s f s' := by
  have hdeclared : Declared (Problem.declared K e s).1.2 (Problem.declared K e s).2 := declared_declare e s
  have hsymbols := hdeclared.forall₂_formedAs _ (d.map_shape_matrices s)
  exact Problem.exists_isFunction (validate_eq_ok.2 he) hdeclared (he.shape_answer d P)
    (hm _ (he.readAs_declare s d hsymbols)) name

variable (h : Problem.IsFunction name e build s f s') (he : e.Valid)
  (hargs : args.map (·.toDense) = d.matrices)

include h he hargs

theorem eval_eq_ok (hm : GrowsFrom (Expr.Computes (f.binding args)) d s build
      (Reads (Expr.Computes (f.binding args)) (d.answer P))) :
    f.eval args = .ok [d.answer P] := by
  have hshapes := (map_shape_toDense hargs).trans (d.map_shape_matrices (K := K) s)
  refine h.built.eval_eq_ok hshapes (hm (he.readAs_declare s d ?_))
  rw [← hargs]
  exact h.built.forall₂_computes hshapes

theorem eval_eq_error {err : Error} {Q : Expr K → Prop}
    (hm : GrowsFrom (Expr.ComputesOr (f.binding args) err) d s build fun S y =>
      Reads (Expr.ComputesOr (f.binding args) err) (d.answer P) S y ∧ Q y)
    (hQ : ∀ y, Q y → ∃ x, Expr.Below x y ∧ x.value (f.binding args) = .error err) :
    f.eval args = .error err := by
  have hshapes := (map_shape_toDense hargs).trans (d.map_shape_matrices (K := K) s)
  refine h.built.eval_eq_error hshapes (hm (he.readAs_declare s d ?_)) hQ
  rw [← hargs]
  exact (h.built.forall₂_computes hshapes).imp fun p d hd => ⟨hd.shape, .inl hd.value⟩

omit h he hargs

/-! ## Projections -/

/-- What `project` builds of a constant is the answer for it. -/
theorem growsFrom_project {ρ : Expr K → Dense K → Prop} (h : Reading K (algebraMap K K) ρ)
    (d : Data K e) (P : Matrix (Fin e.a.rows) (Fin e.a.rows) K) (s : Nat) :
    GrowsFrom ρ d s (fun i => do i.project (← Expr.newConstant (ofMatrix P))) (Reads ρ (d.answer P)) :=
  fun hi => grows_bind (h.grows_constant rfl fun _ _ => rfl) fun _ _ h₁ hx =>
    h.grows_project (hi.mono h₁).readsH hi.rowsH hx

/-- Projecting a constant has a function, and the value is the answer for the constant. -/
theorem exists_function_project (he : e.Valid) (d : Data K e) (P : Matrix (Fin e.a.rows) (Fin e.a.rows) K)
    (name : String) (s : Nat) :
    ∃ (g : Func K) (t : Nat), (Problem.function name e fun i => do
        i.project (← Expr.newConstant (ofMatrix P))).run.run s = (.ok g, t) ∧
      ∀ args : List (Argument K), args.map (·.toDense) = d.matrices → g.eval args = .ok [d.answer P] := by
  obtain ⟨g, t, hg⟩ := exists_isFunction he name s fun T => growsFrom_project (Expr.reading_formedAs T) d P s
  exact ⟨g, t, hg.run, fun args hargs =>
    eval_eq_ok hg he hargs (growsFrom_project (Expr.reading_computes _) d P s)⟩

end LowRankDle

end Lyapunov
