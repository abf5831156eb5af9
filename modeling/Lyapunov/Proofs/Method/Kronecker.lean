/-
What the direct method builds. The system it solves has the matrix `I - A ⊗ A`, so the result is the
solution of the equation where there is a single one, and otherwise the node that solves the system fails.
-/
import Lyapunov.Proofs.Equation.Inputs
import Lyapunov.Proofs.Equation.System
import Lyapunov.Method.Kronecker

open Kronecker

namespace Lyapunov

open Build Lyapunov.Dense Matrix

/-- The reading follows the operations of the direct method as well, where `P` stands for the solution of
the system. -/
structure SolvesAs {α R : Type} [CommRing R] {n : Nat} (ρ : Expr α → Dense R → Prop)
    (A W P : Matrix (Fin n) (Fin n) R) : Prop where
  kron : ∀ (i : Nat) {x}, ρ x (ofMatrix A) → ρ (.binary i .kron x x) ((ofMatrix A).kron (ofMatrix A))
  solve : ∀ (i : Nat) {x y}, ρ x (lyapunovSystem A) → ρ y (Dense.vec W) →
    ρ (.binary i .solve x y) (Dense.vec P)

/-! ## Readings -/

/-- The Kronecker square of a matrix with rows has entries. -/
theorem Expr.contractible_kron {α : Type} {n : Nat} (hn : 0 < n) {x : Expr α} (hx : x.shape = .square n) (i : Nat) :
    (binary i .kron x x).Contractible := fun _ => by
  have hentries : n * n ≠ 0 := (Nat.mul_pos hn hn).ne'
  rw [hx]
  exact ⟨hentries, hentries, Nat.mul_ne_zero hentries hentries⟩

section

variable {K : Type} [ExactScalar K] {n : Nat} {A W P : Matrix (Fin n) (Fin n) K}

theorem Expr.solvesAs_computes (env : Nat → Dense K) (hn : 0 < n) (hA : (1 - A ⊗ₖ A).det ≠ 0)
    (hP : P = A * P * Aᵀ + W) : SolvesAs (Expr.Computes env) A W P where
  kron i _ hx := hx.binary hx rfl rfl i
  solve i _ _ hx hy := hx.binary hy (BinaryOp.check_solve.2 ⟨rfl, rfl⟩) (solution_lyapunovSystem hn hA hP) i

/-- For a singular system the node that solves it fails. -/
theorem Expr.value_solve_singular {env : Nat → Dense K} (hn : 0 < n) (hA : (1 - A ⊗ₖ A).det = 0)
    {x y : Expr K}
    (hx : x.value env = .ok (lyapunovSystem A) ∨ x.value env = .error (.singularMatrix (n * n)))
    (hy : y.value env = .ok (Dense.vec W) ∨ y.value env = .error (.singularMatrix (n * n))) (i : Nat) :
    (binary i .solve x y).value env = .error (.singularMatrix (n * n)) := by
  rw [value_binary]
  rcases hx with hx | hx
  · rcases hy with hy | hy
    · rw [hx, hy]
      exact solution_lyapunovSystem_singular hn hA
    · rw [hx, hy]
      rfl
  · rw [hx]
    rfl

theorem Expr.solvesAs_computesOr (env : Nat → Dense K) (hn : 0 < n) (hA : (1 - A ⊗ₖ A).det = 0)
    (P : Matrix (Fin n) (Fin n) K) :
    SolvesAs (Expr.ComputesOr env (.singularMatrix (n * n))) A W P where
  kron i x hx := ⟨by rw [shape_binary, hx.1]; rfl, Expr.value_binary_or hx.2 hx.2 (.inl rfl) i⟩
  solve i x y hx hy :=
    ⟨by rw [shape_binary, hx.1, hy.1]; rfl, .inr (Expr.value_solve_singular hn hA hx.2 hy.2 i)⟩

theorem Expr.solvesAs_formedAs (T : Set (Expr K)) (hn : 0 < n) (A W P : Matrix (Fin n) (Fin n) K) :
    SolvesAs (Expr.FormedAs T) A W P where
  kron i x hx :=
    ⟨by rw [shape_binary, hx.1]; rfl, formed_binary rfl (contractible_kron hn hx.1 i) i⟩
  solve i x y hx hy := by
    refine ⟨by rw [shape_binary, hx.1, hy.1]; rfl, formed_binary (BinaryOp.check_solve.2 ?_)
      (by simp [BinaryOp.Contractible]) i⟩
    rw [hx.1, hy.1]
    exact ⟨rfl, rfl⟩

end

/-! ## The method -/

/-- Below the node `e` there is one that solves the system. -/
def Expr.Solves {α R : Type} [CommRing R] {n : Nat} (ρ : Expr α → Dense R → Prop)
    (A W : Matrix (Fin n) (Fin n) R) (e : Expr α) : Prop :=
  ∃ i x y, ρ x (lyapunovSystem A) ∧ ρ y (Dense.vec W) ∧ Below (.binary i .solve x y) e

theorem Expr.Solves.of_below {α R : Type} [CommRing R] {n : Nat} {ρ : Expr α → Dense R → Prop}
    {A W : Matrix (Fin n) (Fin n) R} {x e : Expr α} (hx : x.Solves ρ A W) (h : Below x e) :
    e.Solves ρ A W := by
  obtain ⟨i, y, z, hy, hz, hbelow⟩ := hx
  exact ⟨i, y, z, hy, hz, hbelow.trans h⟩

/-- If the system is singular, so there is a node that fails. -/
theorem Expr.Solves.exists_fails {K : Type} [ExactScalar K] {n : Nat} {A W : Matrix (Fin n) (Fin n) K}
    {env : Nat → Dense K} {e : Expr K} (hn : 0 < n) (hA : (1 - A ⊗ₖ A).det = 0)
    (h : e.Solves (ComputesOr env (.singularMatrix (n * n))) A W) :
    ∃ x, Below x e ∧ x.value env = .error (.singularMatrix (n * n)) := by
  obtain ⟨i, x, y, hx, hy, hbelow⟩ := h
  exact ⟨_, hbelow, Expr.value_solve_singular hn hA hx.value hy.value i⟩

theorem Expr.returns_below_reshape {α : Type} (x : Expr α) (s : Shape) : (x.reshape s).Returns (Below x ·) := by
  unfold Expr.reshape
  split
  · exact returns_pure (.refl x)
  · exact fun _ => below_of_operand (List.mem_singleton_self x)

section Dependence

variable {α : Type} [Scalar α]

/-- The solution depends on the Kronecker square of `a`. -/
theorem Kronecker.returns_below_solve (a w : Expr α) :
    (solve a w).Returns fun p => ∃ i, Expr.Below (.binary i .kron a a) p := by
  refine returns_bind (returns_true _) fun one _ => ?_
  have hkron : (a.kron a).Returns fun aa => ∃ i, aa = .binary i .kron a a := fun i => ⟨i, rfl⟩
  refine returns_bind hkron fun aa haa => ?_
  obtain ⟨i, rfl⟩ := haa
  have hsystem : (one.sub (.binary i .kron a a)).Returns (Expr.Below (.binary i .kron a a)) :=
    returns_bind (returns_newUnary fun j => Expr.below_of_operand (List.mem_singleton_self _)) fun _ hneg =>
      returns_newBinary fun j => hneg.binary_right j .add one
  refine returns_bind hsystem fun system hsystem => ?_
  refine returns_bind (returns_true _) fun b _ => ?_
  refine returns_bind (returns_newBinary fun j => hsystem.binary_left j .solve b) fun x hx => ?_
  exact (x.returns_below_reshape _).imp fun p hp => ⟨i, hx.trans hp⟩

theorem Kronecker.returns_below_dle (a v : Expr α) :
    (dle a v).Returns fun p => ∃ i, Expr.Below (.binary i .kron a a) p :=
  returns_bind (returns_true _) fun w _ => returns_below_solve a w

theorem Kronecker.returns_below_lowRank {i : LowRankInputs α} (hne : i.h ≠ none → i.hBlocks ≠ []) :
    (lowRank i).Returns fun y => ∃ j, Expr.Below (.binary j .kron i.a i.a) y := by
  have hrest (r : Expr α) : Returns (do i.project (← solve i.a r)) fun y =>
      ∃ j, Expr.Below (.binary j .kron i.a i.a) y := by
    refine returns_bind (returns_below_solve i.a r) fun p hp => ?_
    obtain ⟨j, hp⟩ := hp
    exact (LowRankInputs.returns_below_project hne).imp fun y hy => ⟨j, hp.trans hy⟩
  unfold lowRank
  refine returns_bind (returns_true _) fun w _ => ?_
  cases i.c with
  | none => exact returns_bind (returns_true _) fun r _ => hrest r
  | some c => exact returns_bind (returns_true _) fun r _ => hrest r

end Dependence

namespace Reading

variable {α : Type} [Scalar α] {K : Type} [Field K] {R : Type} [CommRing R] [Algebra K R] {φ : α → R}
  {ρ : Expr α → Dense R → Prop} (h : Reading K φ ρ) {n : Nat} {A W P : Matrix (Fin n) (Fin n) R}
  {S : Set (Expr α)} {a w v : Expr α}

include h

theorem grows_identity (n : Nat) :
    Grows (Readable ρ) S (Expr.newConstant (identity n)) (Reads ρ (identity n)) :=
  h.grows_constant rfl fun j k => by
    simp only [identity, get_ofFn_eq_ite, apply_ite φ, h.keeps.zero, h.keeps.one]

theorem grows_kroneckerSolve (hs : SolvesAs ρ A W P) (ha : Reads ρ (ofMatrix A) S a)
    (hw : Reads ρ (ofMatrix W) S w) :
    Grows (Readable ρ) S (Kronecker.solve a w) fun S' p =>
      Reads ρ (ofMatrix P) S' p ∧ p.Solves ρ A W := by
  have hshape : a.shape = .square n := h.shape ha.reads
  have hsize : w.shape.size = n * n := congrArg Shape.size (h.shape hw.reads)
  unfold Kronecker.solve
  rw [hshape]
  refine grows_bind (h.grows_identity (n * n)) fun S₁ one h₁ hone => ?_
  have ha₁ := ha.mono h₁
  refine grows_bind (ha₁.grows_binary ha₁ fun i => hs.kron i ha₁.reads) fun S₂ aa h₂ haa => ?_
  refine grows_bind (h.grows_difference (hone.mono h₂) haa rfl) fun S₃ system h₃ hsystem => ?_
  unfold Expr.vectorize
  rw [hsize]
  refine grows_bind (h.grows_reshape (hw.mono ((h₁.trans h₂).trans h₃)) (size_vector n).symm)
    fun S₄ b h₄ hb => ?_
  have hsystem := hsystem.mono h₄
  have hbelow : (Expr.newBinary .solve system b).Returns (Expr.Solves ρ A W) :=
    returns_newBinary fun i => ⟨i, system, b, hsystem.reads, hb.reads, .refl _⟩
  refine grows_bind ((hsystem.grows_binary hb fun i => hs.solve i hsystem.reads hb.reads).and hbelow)
    fun S₅ x h₅ hx => ?_
  have hreshape := h.grows_reshape (s := .square n) hx.1 (size_vector n)
  rw [reshape_vec] at hreshape
  exact (hreshape.and (x.returns_below_reshape (.square n))).imp fun S₆ p h₆ hp => ⟨hp.1, hx.2.of_below hp.2⟩

/-- The method for the full equation builds the solution for the symmetric part of its data. -/
theorem grows_kroneckerDle {V : Matrix (Fin n) (Fin n) R} (hs : SolvesAs ρ A (symmetricPart K V) P)
    (ha : Reads ρ (ofMatrix A) S a) (hv : Reads ρ (ofMatrix V) S v) :
    Grows (Readable ρ) S (Kronecker.dle a v) fun S' p =>
      Reads ρ (ofMatrix P) S' p ∧ p.Solves ρ A (symmetricPart K V) :=
  grows_bind (h.grows_symmetrize hv) fun _ _ h₁ hw => h.grows_kroneckerSolve hs (ha.mono h₁) hw

/-- The method for the low-rank equation builds the answer for the solution. -/
theorem grows_kroneckerLowRank {i : LowRankInputs α} {v : Dense R} {c H : Option (Dense R)}
    (hi : i.ReadAs ρ S A v c H) (hne : i.h ≠ none → i.hBlocks ≠ [])
    (hs : SolvesAs ρ A (LowRankDle.rhs K n v c) P) :
    Grows (Readable ρ) S (Kronecker.lowRank i) fun S' y =>
      Reads ρ (LowRankDle.answer H i.hBlocks P) S' y ∧ y.Solves ρ A (LowRankDle.rhs K n v c) := by
  obtain ⟨m, V, C, hv, hC, hrhs⟩ := hi.exists_factor K
  refine grows_bind (h.grows_symmetrize hv) fun S₁ w h₁ hw => ?_
  have hrest (S₂ : Set (Expr α)) (r : Expr α) (h₂ : S₁ ⊆ S₂)
      (hr : Reads ρ (ofMatrix (LowRankDle.rhs K n v c)) S₂ r) :
      Grows (Readable ρ) S₂ (do i.project (← Kronecker.solve i.a r)) fun S' y =>
        Reads ρ (LowRankDle.answer H i.hBlocks P) S' y ∧ y.Solves ρ A (LowRankDle.rhs K n v c) := by
    have hi₂ := hi.mono (h₁.trans h₂)
    refine grows_bind (h.grows_kroneckerSolve hs hi₂.readsA hr) fun S₃ p h₃ hp => ?_
    have hproject := h.grows_project (hi₂.mono h₃).readsH hi.rowsH hp.1
    exact (hproject.and (LowRankInputs.returns_below_project hne)).imp fun S₄ y h₄ hy =>
      ⟨hy.1, hp.2.of_below hy.2⟩
  rw [hrhs] at hrest ⊢
  -- what the right-hand side is made of depends on whether there is a factor `C`
  have hC₁ := hC.mono h₁
  generalize i.c = o at hC₁ ⊢
  cases hC₁ with
  | identity => exact grows_bind (grows_pure (by rwa [transpose_one, one_mul, mul_one])) hrest
  | factor hc => exact grows_bind (h.grows_congruence hc hw) hrest

end Reading

end Lyapunov
