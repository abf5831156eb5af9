/-
Solvers by the direct method give the solution of the equation where there is a single one, and fail
otherwise. What they give exceeds what solvers by Smith's method give by the rest of the series.
-/
import Lyapunov.Proofs.Method.Kronecker
import Lyapunov.Proofs.Solver.Smith

open Kronecker

namespace Lyapunov.Kronecker

open Build Lyapunov.Dense Matrix

section Reading

variable {α : Type} [Scalar α] {K : Type} [Field K] {R : Type} [CommRing R] [Algebra K R] {φ : α → R}
  {ρ : Expr α → Dense R → Prop} (h : Reading K φ ρ)

include h

theorem growsFrom_dle {n : Nat} {A V P : Matrix (Fin n) (Fin n) R} (hs : SolvesAs ρ A (symmetricPart K V) P) :
    Dle.GrowsFrom ρ A V (fun i => dle i.a i.v) fun S y =>
      Reads ρ (ofMatrix P) S y ∧ y.Solves ρ A (symmetricPart K V) :=
  fun _ _ ha hv => h.grows_kroneckerDle hs ha hv

theorem growsFrom_lowRank {e : LowRankDle} {d : LowRankDle.Data R e}
    {P : Matrix (Fin e.a.rows) (Fin e.a.rows) R} (hs : SolvesAs ρ d.matrix (d.rhs K) P) (s : Nat) :
    LowRankDle.GrowsFrom ρ d s (fun i => lowRank i) fun S y =>
      Reads ρ (d.answer P) S y ∧ y.Solves ρ d.matrix (d.rhs K) :=
  fun hi => h.grows_kroneckerLowRank hi (LowRankDle.hBlocks_declare_ne_nil e s) hs

end Reading

variable {K : Type} [ExactScalar K] {s s' : Nat} {name : String} {f : Func K} {args : List (Argument K)}

/-! ## The full equation -/

section Dle

variable {n : Nat} {A V P : Matrix (Fin n) (Fin n) K}

theorem exists_isFunction_dle (hn : 0 < n) (name : String) (s : Nat) :
    ∃ (f : Func K) (s' : Nat), Problem.IsFunction name (Dle.square n) (fun i => dle i.a i.v) s f s' :=
  Dle.exists_isFunction (A := 0) (V := 0) (P := 0) name s fun T S i ha hv =>
    (growsFrom_dle (Expr.reading_formedAs T) (Expr.solvesAs_formedAs T hn 0 _ 0) S i ha hv).imp
      fun _ _ _ hy => hy.1

variable (hf : Problem.IsFunction name (Dle.square n) (fun i => dle i.a i.v) s f s')
  (hargs : args.map (·.toDense) = [ofMatrix A, ofMatrix V]) (hn : 0 < n)

include hf hargs hn

theorem eval_dle (hA : (1 - A ⊗ₖ A).det ≠ 0) (hP : P = A * P * Aᵀ + symmetricPart K V) :
    f.eval args = .ok [ofMatrix P] :=
  Dle.eval_eq_ok hf hargs fun S i ha hv =>
    (growsFrom_dle (Expr.reading_computes _) (Expr.solvesAs_computes _ hn hA hP) S i ha hv).imp
      fun _ _ _ hy => hy.1

theorem eval_dle_singular (hA : (1 - A ⊗ₖ A).det = 0) :
    f.eval args = .error (.singularMatrix (n * n)) :=
  Dle.eval_eq_error hf hargs
    (growsFrom_dle (Expr.reading_computesOr _ _) (Expr.solvesAs_computesOr _ hn hA 0))
    fun _ hy => hy.exists_fails hn hA

end Dle

/-! ## The low-rank equation -/

section LowRank

variable {e : LowRankDle} {d : LowRankDle.Data K e} {P : Matrix (Fin e.a.rows) (Fin e.a.rows) K}

theorem exists_isFunction_lowRank (he : e.Valid) (hn : 0 < e.a.rows) (name : String) (s : Nat) :
    ∃ (f : Func K) (s' : Nat), Problem.IsFunction name e (fun i => lowRank i) s f s' :=
  LowRankDle.exists_isFunction (d := .zero K e) (P := 0) he name s fun T hi =>
    (growsFrom_lowRank (Expr.reading_formedAs T) (Expr.solvesAs_formedAs T hn _ _ 0) s hi).imp
      fun _ _ _ hy => hy.1

variable (hf : Problem.IsFunction name e (fun i => lowRank i) s f s') (he : e.Valid)
  (hargs : args.map (·.toDense) = d.matrices) (hn : 0 < e.a.rows)

include hf he hargs hn

theorem eval_lowRank (hA : (1 - d.matrix ⊗ₖ d.matrix).det ≠ 0)
    (hP : P = d.matrix * P * d.matrixᵀ + d.rhs K) : f.eval args = .ok [d.answer P] :=
  LowRankDle.eval_eq_ok hf he hargs fun hi =>
    (growsFrom_lowRank (Expr.reading_computes _) (Expr.solvesAs_computes _ hn hA hP) s hi).imp
      fun _ _ _ hy => hy.1

theorem eval_lowRank_singular (hA : (1 - d.matrix ⊗ₖ d.matrix).det = 0) :
    f.eval args = .error (.singularMatrix (e.a.rows * e.a.rows)) :=
  LowRankDle.eval_eq_error hf he hargs
    (growsFrom_lowRank (Expr.reading_computesOr _ _) (Expr.solvesAs_computesOr _ hn hA 0) s)
    fun _ hy => hy.exists_fails hn hA

end LowRank

/-! ## Solvers -/

/-- The function of the full equation, and that of solvers with any options that are accepted. -/
def IsDleFunction (e : Dle) (name : String) (s : Nat) (f : Func K) (s' : Nat) : Prop :=
  Solver.HasFunction name "simple" e (fun i => dle i.a i.v)
    (fun o => ∃ r, o.Accepted [OptionSpec.generic, []] r) s f s'

/-- The function of the low-rank equation, and that of solvers with any options that are accepted. -/
def IsLowRankFunction (e : LowRankDle) (name : String) (s : Nat) (f : Func K) (s' : Nat) : Prop :=
  Solver.HasFunction name "simple" e (fun i => lowRank i)
    (fun o => ∃ r, o.Accepted [OptionSpec.generic, []] r) s f s'

theorem isDleFunction_of {n : Nat} (hf : Problem.IsFunction name (Dle.square n) (fun i => dle i.a i.v) s f s') :
    IsDleFunction (.square n) name s f s' :=
  hf.hasFunction fun _ ⟨_, ho⟩ => offers_dle ho

theorem isLowRankFunction_of {e : LowRankDle} (hf : Problem.IsFunction name e (fun i => lowRank i) s f s') :
    IsLowRankFunction e name s f s' :=
  hf.hasFunction fun _ ⟨_, ho⟩ => offers_lowRank ho

/-- The result for the equation with the right-hand side `W`: an error exactly when `I - A ⊗ A` is singular,
and otherwise the answer for the only solution. -/
structure IsExact {n : Nat} (A W : Matrix (Fin n) (Fin n) K) (answer : Matrix (Fin n) (Fin n) K → Dense K)
    (result : Except Error (List (Dense K))) : Prop where
  singular : result = .error (.singularMatrix (n * n)) ↔ (1 - A ⊗ₖ A).det = 0
  unique : (1 - A ⊗ₖ A).det ≠ 0 → ∃! P, P = A * P * Aᵀ + W
  answer : (1 - A ⊗ₖ A).det ≠ 0 → ∀ P, P = A * P * Aᵀ + W → result = .ok [answer P]

theorem isExact_of {n : Nat} {A W : Matrix (Fin n) (Fin n) K} {answer : Matrix (Fin n) (Fin n) K → Dense K}
    {result : Except Error (List (Dense K))}
    (herror : (1 - A ⊗ₖ A).det = 0 → result = .error (.singularMatrix (n * n)))
    (hok : ∀ P, (1 - A ⊗ₖ A).det ≠ 0 → P = A * P * Aᵀ + W → result = .ok [answer P]) :
    IsExact A W answer result where
  singular := by
    refine ⟨fun hsingular => ?_, herror⟩
    by_contra hA
    obtain ⟨P, hP, -⟩ := existsUnique_solution (Ne.isUnit hA) W
    rw [hok P hA hP] at hsingular
    cases hsingular
  unique hA := existsUnique_solution hA.isUnit W
  answer hA P := hok P hA

/-- For both classes of equations the solver fails exactly when `I - A ⊗ A` is singular, and otherwise gives
the only solution, or the answer for it. -/
theorem solve_spec (name : String) (s : Nat) :
    (∀ e : Dle, e.validate = .ok () → 0 < e.a.rows →
      ∃ (f : Func K) (s' : Nat), IsDleFunction e name s f s' ∧
        ∀ (A V : Matrix (Fin e.a.rows) (Fin e.a.rows) K) (args : List (Argument K)),
          args.map (·.toDense) = [ofMatrix A, ofMatrix V] →
            IsExact A (symmetricPart K V) ofMatrix (f.eval args)) ∧
    (∀ e : LowRankDle, e.validate = .ok () → 0 < e.a.rows →
      ∃ (f : Func K) (s' : Nat), IsLowRankFunction e name s f s' ∧
        ∀ (d : LowRankDle.Data K e) (args : List (Argument K)), args.map (·.toDense) = d.matrices →
          IsExact d.matrix (d.rhs K) d.answer (f.eval args)) := by
  refine ⟨fun e he hn => ?_, fun e he hn => ?_⟩
  · obtain ⟨n, rfl⟩ : ∃ n, e = .square n := ⟨_, Dle.validate_eq_ok.1 he⟩
    obtain ⟨f, s', hf⟩ := exists_isFunction_dle (K := K) hn name s
    exact ⟨f, s', isDleFunction_of hf, fun A V args hargs =>
      isExact_of (eval_dle_singular hf hargs hn) fun P hA hP => eval_dle hf hargs hn hA hP⟩
  · have he := LowRankDle.validate_eq_ok.1 he
    obtain ⟨f, s', hf⟩ := exists_isFunction_lowRank (K := K) he hn name s
    exact ⟨f, s', isLowRankFunction_of hf, fun d args hargs =>
      isExact_of (eval_lowRank_singular hf he hargs hn) fun P hA hP => eval_lowRank hf he hargs hn hA hP⟩

/-- A number with a solution, one without, and an answer with two blocks. -/
theorem solve_numbers : (Dle.square 1).validate = .ok () ∧ LowRankDle.twoBlocks.validate = .ok () ∧
    (∃ (f : Func ℚ) (s' : Nat), IsDleFunction (.square 1) "f" 0 f s' ∧
      Solver.Makes "f" "simple" (Dle.square 1) .empty 0 f s' ∧
      f.eval [.scalar 2, .scalar 3] = .ok [.ofScalar (-1)] ∧
      f.eval [.scalar 1, .scalar 3] = .error (.singularMatrix 1)) ∧
    ∃ (f : Func ℚ) (s' : Nat), IsLowRankFunction LowRankDle.twoBlocks "f" 0 f s' ∧
      Solver.Makes "f" "simple" LowRankDle.twoBlocks .empty 0 f s' ∧
      ∃ y, f.eval (LowRankDle.twoBlocksData.matrices.map .dense) = .ok [y] ∧
        y.entries = #[-4 / 27, 0, 0, -2 / 3] := by
  obtain ⟨hdle, hlowRank⟩ := solve_spec (K := ℚ) "f" 0
  refine ⟨rfl, rfl, ?_, ?_⟩
  · obtain ⟨f, s', hf, heval⟩ := hdle (.square 1) rfl Nat.one_pos
    have hexact (a v : ℚ) : IsExact !![a] (symmetricPart ℚ !![v]) ofMatrix (f.eval [.scalar a, .scalar v]) :=
      heval !![a] !![v] _ (congrArg₂ (fun a v => [a, v]) (ofScalar_eq_ofMatrix a) (ofScalar_eq_ofMatrix v))
    refine ⟨f, s', hf, hf.makes _ accepted_empty, ?_, (hexact 1 3).singular.2 (by decide +kernel)⟩
    rw [(hexact 2 3).answer (by decide +kernel) !![-1] (by decide +kernel), ofScalar_eq_ofMatrix]
  · obtain ⟨f, s', hf, heval⟩ := hlowRank .twoBlocks rfl Nat.two_pos
    refine ⟨f, s', hf, hf.makes _ accepted_empty, _, (heval LowRankDle.twoBlocksData _ rfl).answer
      (by decide +kernel) _ LowRankDle.twoBlocksSolution_eq, ?_⟩
    decide +kernel

/-! ## The rest of the series -/

/-- One result exceeds the other by `rest P`, where `P` is the only solution. -/
def Exceeds {n : Nat} (A W : Matrix (Fin n) (Fin n) K) (rest : Matrix (Fin n) (Fin n) K → Dense K)
    (left right : Except Error (List (Dense K))) : Prop :=
  (∃! P, P = A * P * Aᵀ + W) ∧ ∀ P, P = A * P * Aᵀ + W →
    ∃ y z, left = .ok [y] ∧ right = .ok [z] ∧ y.add z.neg = rest P

/-- For both classes of equations what the direct method gives exceeds what Smith's method gives for any
number of terms by the rest of the series, whatever the size of `A`. -/
theorem exceeds_smith (name name' : String) (s t : Nat) :
    (∀ e : Dle, e.validate = .ok () → 0 < e.a.rows → ∀ settings : Smith.Settings,
      ∃ (f : Func K) (s' : Nat) (g : Func K) (t' : Nat), IsDleFunction e name s f s' ∧
        Smith.IsDleFunction e.a.rows settings name' t g t' ∧
        ∀ (A V : Matrix (Fin e.a.rows) (Fin e.a.rows) K) (args : List (Argument K)),
          args.map (·.toDense) = [ofMatrix A, ofMatrix V] → (1 - A ⊗ₖ A).det ≠ 0 →
            Exceeds A (symmetricPart K V) (fun P => ofMatrix (A ^ settings.terms * P * (A ^ settings.terms)ᵀ))
              (f.eval args) (g.eval args)) ∧
    (∀ e : LowRankDle, e.validate = .ok () → 0 < e.a.rows → ∀ k : Nat,
      ∃ (f : Func K) (s' : Nat) (g : Func K) (t' : Nat), IsLowRankFunction e name s f s' ∧
        Smith.IsLowRankFunction e k name' t g t' ∧
        ∀ (d : LowRankDle.Data K e) (args : List (Argument K)), args.map (·.toDense) = d.matrices →
          (1 - d.matrix ⊗ₖ d.matrix).det ≠ 0 →
            Exceeds d.matrix (d.rhs K) (fun P => d.answer (d.matrix ^ k * P * (d.matrix ^ k)ᵀ))
              (f.eval args) (g.eval args)) := by
  refine ⟨fun e he hn settings => ?_, fun e he hn k => ?_⟩
  · obtain ⟨n, rfl⟩ : ∃ n, e = .square n := ⟨_, Dle.validate_eq_ok.1 he⟩
    obtain ⟨f, s', hf⟩ := exists_isFunction_dle (K := K) hn name s
    obtain ⟨g, t', hg⟩ := Smith.exists_isFunction_dle (K := K) n settings name' t
    refine ⟨f, s', g, t', isDleFunction_of hf, Smith.isDleFunction_of hg, fun A V args hargs hA => ?_⟩
    refine ⟨existsUnique_solution hA.isUnit _, fun P hP =>
      ⟨_, _, eval_dle hf hargs hn hA hP, Smith.eval_dle hg hargs, ?_⟩⟩
    exact (sub_ofMatrix _ _).trans (congrArg ofMatrix (sub_partialSum _ _ hP _))
  · have he := LowRankDle.validate_eq_ok.1 he
    obtain ⟨f, s', hf⟩ := exists_isFunction_lowRank (K := K) he hn name s
    obtain ⟨g, t', hg⟩ := Smith.exists_isFunction_lowRank (K := K) he k name' t
    refine ⟨f, s', g, t', isLowRankFunction_of hf, Smith.isLowRankFunction_of hg, fun d args hargs hA => ?_⟩
    refine ⟨existsUnique_solution hA.isUnit _, fun P hP =>
      ⟨_, _, eval_lowRank hf he hargs hn hA hP, Smith.eval_lowRank hg he hargs, ?_⟩⟩
    exact (LowRankDle.answer_sub _ _ _ _).trans (congrArg d.answer (sub_partialSum _ _ hP k))

/-- The rest of a series of numbers, and that of an answer with two blocks. -/
theorem exceeds_numbers : (Dle.square 1).validate = .ok () ∧ LowRankDle.twoBlocks.validate = .ok () ∧
    (∃ (f : Func ℚ) (s' : Nat) (g : Func ℚ) (t' : Nat), IsDleFunction (.square 1) "f" 0 f s' ∧
      Smith.IsDleFunction 1 ⟨2, true⟩ "g" 0 g t' ∧
      ∃ y z, f.eval [.scalar 2, .scalar 3] = .ok [y] ∧ g.eval [.scalar 2, .scalar 3] = .ok [z] ∧
        (y.add z.neg).entries = #[-256]) ∧
    ∃ (f : Func ℚ) (s' : Nat) (g : Func ℚ) (t' : Nat), IsLowRankFunction LowRankDle.twoBlocks "f" 0 f s' ∧
      Smith.IsLowRankFunction LowRankDle.twoBlocks 2 "g" 0 g t' ∧
      ∃ y z, f.eval (LowRankDle.twoBlocksData.matrices.map .dense) = .ok [y] ∧
        g.eval (LowRankDle.twoBlocksData.matrices.map .dense) = .ok [z] ∧
        (y.add z.neg).entries = #[-544 / 27, 0, 0, -32 / 3] := by
  obtain ⟨hdle, hlowRank⟩ := exceeds_smith (K := ℚ) "f" "g" 0 0
  refine ⟨rfl, rfl, ?_, ?_⟩
  · obtain ⟨f, s', g, t', hf, hg, heval⟩ := hdle (.square 1) rfl Nat.one_pos ⟨2, true⟩
    have hexceeds : Exceeds (n := 1) !![2] (symmetricPart ℚ !![3])
        (fun P => ofMatrix (!![2] ^ 4 * P * (!![2] ^ 4)ᵀ))
        (f.eval [.scalar 2, .scalar 3]) (g.eval [.scalar 2, .scalar 3]) :=
      heval !![2] !![3] _ (congrArg₂ (fun a v => [a, v]) (ofScalar_eq_ofMatrix 2) (ofScalar_eq_ofMatrix 3))
        (by decide +kernel)
    obtain ⟨y, z, hy, hz, hrest⟩ := hexceeds.2 !![-1] (by decide +kernel)
    refine ⟨f, s', g, t', hf, hg, y, z, hy, hz, ?_⟩
    rw [hrest]
    decide +kernel
  · obtain ⟨f, s', g, t', hf, hg, heval⟩ := hlowRank .twoBlocks rfl Nat.two_pos 2
    have hexceeds := heval LowRankDle.twoBlocksData (LowRankDle.twoBlocksData.matrices.map .dense) rfl
      (by decide +kernel)
    obtain ⟨y, z, hy, hz, hrest⟩ := hexceeds.2 _ LowRankDle.twoBlocksSolution_eq
    refine ⟨f, s', g, t', hf, hg, y, z, hy, hz, ?_⟩
    rw [hrest]
    decide +kernel

end Lyapunov.Kronecker
