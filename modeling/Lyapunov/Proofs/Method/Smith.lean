/-
What Smith's method builds. The iteration builds the sum of the first terms of the series, one more in
each step or, with doubling, twice as many; the method for the low-rank equation builds the answer for
that sum, whichever of the factors are there.
-/
import Lyapunov.Proofs.Equation.Inputs
import Lyapunov.Method.Smith

namespace Lyapunov

open Build Lyapunov.Dense Matrix

/-- How many terms of the series are summed for the full equation. -/
def Smith.Settings.terms (s : Smith.Settings) : Nat :=
  if s.freqDoubling then 2 ^ s.iter else s.iter + 1

section

variable {α : Type} [Scalar α] {K : Type} [Field K] {R : Type} [CommRing R] [Algebra K R] {φ : α → R}
  {ρ : Expr α → Dense R → Prop} {S S' : Set (Expr α)} {n m : Nat}

namespace Reading

variable (h : Reading K φ ρ) {A W : Matrix (Fin n) (Fin n) R} {a v p : Expr α}

include h

/-! ## The full equation -/

/-- Each step adds a term. -/
theorem grows_iterate_plain (k : Nat) {j : Nat} (ha : Reads ρ (ofMatrix A) S a)
    (hv : Reads ρ (ofMatrix W) S v) (hp : Reads ρ (ofMatrix (partialSum A W j)) S p) :
    Grows (Readable ρ) S (Smith.iterate false k a v p) (Reads ρ (ofMatrix (partialSum A W (j + k)))) := by
  induction k generalizing S j p with
  | zero => exact grows_pure hp
  | succ k ih =>
    unfold Smith.iterate
    refine grows_bind (h.grows_congruence ha hp) fun S₁ q h₁ hq => ?_
    refine grows_bind (h.grows_add hq (hv.mono h₁)) fun S₂ p' h₂ hp' => ?_
    rw [congruence_partialSum_add] at hp'
    rw [if_neg Bool.false_ne_true, ← Nat.add_assoc, Nat.add_right_comm]
    exact ih (ha.mono (h₁.trans h₂)) (hv.mono (h₁.trans h₂)) hp'

/-- Each step with doubling adds as many terms as there are: `a` is the power of `A` with that number,
and `v` and `p` are the same sum. -/
theorem grows_iterate_doubling (k : Nat) {j : Nat} (ha : Reads ρ (ofMatrix (A ^ j)) S a)
    (hv : Reads ρ (ofMatrix (partialSum A W j)) S v) (hp : Reads ρ (ofMatrix (partialSum A W j)) S p) :
    Grows (Readable ρ) S (Smith.iterate true k a v p)
      (Reads ρ (ofMatrix (partialSum A W (j * 2 ^ k)))) := by
  induction k generalizing S j a v p with
  | zero =>
    rw [pow_zero, mul_one]
    exact grows_pure hp
  | succ k ih =>
    unfold Smith.iterate
    refine grows_bind (h.grows_congruence ha hp) fun S₁ q h₁ hq => ?_
    refine grows_bind (h.grows_add hq (hv.mono h₁)) fun S₂ p' h₂ hp' => ?_
    rw [congruence_pow_partialSum_add] at hp'
    have ha₂ := ha.mono (h₁.trans h₂)
    have hv₂ := hv.mono (h₁.trans h₂)
    rw [if_pos rfl]
    refine grows_bind (h.grows_congruence ha₂ hv₂) fun S₃ w h₃ hw => ?_
    refine grows_bind (h.grows_add hw (hv₂.mono h₃)) fun S₄ v' h₄ hv' => ?_
    rw [congruence_pow_partialSum_add] at hv'
    have ha₄ := ha₂.mono (h₃.trans h₄)
    refine grows_bind (h.grows_matmul ha₄ ha₄) fun S₅ a' h₅ ha' => ?_
    rw [← pow_add, ← Nat.mul_two] at ha'
    rw [pow_succ', ← Nat.mul_assoc]
    exact ih ha' (hv'.mono h₅) (hp'.mono ((h₃.trans h₄).trans h₅))

/-- The method for the full equation builds the sum of as many terms as its settings ask for. -/
theorem grows_smithDle {V : Matrix (Fin n) (Fin n) R} (ha : Reads ρ (ofMatrix A) S a)
    (hv : Reads ρ (ofMatrix V) S v) (s : Smith.Settings) :
    Grows (Readable ρ) S (Smith.dle a v s)
      (Reads ρ (ofMatrix (partialSum A (symmetricPart K V) s.terms))) := by
  obtain ⟨k, doubling⟩ := s
  refine grows_bind (h.grows_symmetrize hv) fun S₁ w h₁ hw => ?_
  have hone : Reads ρ (ofMatrix (partialSum A (symmetricPart K V) 1)) S₁ w := by
    rwa [partialSum_one]
  cases doubling with
  | false =>
    rw [Smith.Settings.terms, if_neg Bool.false_ne_true, Nat.add_comm k 1]
    exact h.grows_iterate_plain k (ha.mono h₁) hw hone
  | true =>
    rw [Smith.Settings.terms, if_pos rfl, ← Nat.one_mul (2 ^ k)]
    exact h.grows_iterate_doubling k (by rw [pow_one]; exact ha.mono h₁) hone hone

end Reading

/-! ## Sums of projected terms -/

/-- A sum that is still empty is zero; one that is not is read as the projection of `X`. -/
def SumReads (ρ : Expr α → Dense R → Prop) (X : Matrix (Fin n) (Fin n) R) (S : Set (Expr α))
    (B : ColumnBlock R n) : Option (Expr α) → Prop
  | none => X = 0
  | some y => Reads ρ (ofMatrix (B.project X)) S y

omit [Scalar α] in
theorem SumReads.mono {X : Matrix (Fin n) (Fin n) R} {B : ColumnBlock R n} {sum : Option (Expr α)}
    (hX : SumReads ρ X S B sum) (hS : S ⊆ S') : SumReads ρ X S' B sum := by
  cases sum with
  | none => exact hX
  | some y => exact Reads.mono hX hS

/-- The term `D V D'` of the series, projected to each of the blocks. -/
def TermsRead (ρ : Expr α → Dense R → Prop) (Bs : List (ColumnBlock R n)) (V : Matrix (Fin m) (Fin m) R)
    (S : Set (Expr α)) (terms : Option (Expr α) → Build (List (Expr α))) : Prop :=
  ∀ (S' : Set (Expr α)) (D : Matrix (Fin n) (Fin m) R) (d : Option (Expr α)), S ⊆ S' →
    FactorReads ρ S' D d → Grows (Readable ρ) S' (terms d) fun S'' =>
      List.Forall₂ (fun B t => Reads ρ (ofMatrix (B.project (D * V * Dᵀ))) S'' t) Bs

namespace Reading

variable (h : Reading K φ ρ) {A : Matrix (Fin n) (Fin n) R} {V : Matrix (Fin m) (Fin m) R}
  {Bs : List (ColumnBlock R n)} {a v : Expr α}

include h

theorem grows_addTerm {X T : Matrix (Fin n) (Fin n) R} {B : ColumnBlock R n} {sum : Option (Expr α)}
    {t : Expr α} (hsum : SumReads ρ X S B sum) (ht : Reads ρ (ofMatrix (B.project T)) S t) :
    Grows (Readable ρ) S (Smith.addTerm sum t) fun S' => SumReads ρ (X + T) S' B := by
  cases sum with
  | none =>
    have hX : X = 0 := hsum
    rw [hX, zero_add]
    exact grows_pure ht
  | some y =>
    refine grows_bind (h.grows_add hsum ht) fun S₁ z h₁ hz => ?_
    rw [← B.project_add] at hz
    exact grows_pure hz

/-- Each step adds the projected terms for the next factor to the sums. -/
theorem grows_sumSeries (ha : Reads ρ (ofMatrix A) S a) {terms : Option (Expr α) → Build (List (Expr α))}
    (hterms : TermsRead ρ Bs V S terms) (k : Nat) {D : Matrix (Fin n) (Fin m) R} {d : Option (Expr α)}
    {X : Matrix (Fin n) (Fin n) R} {sums : List (Option (Expr α))} (hd : FactorReads ρ S D d)
    (hsums : List.Forall₂ (SumReads ρ X S) Bs sums) :
    Grows (Readable ρ) S (Smith.sumSeries a terms k d sums) fun S' =>
      List.Forall₂ (SumReads ρ (X + partialSum A (D * V * Dᵀ) k) S') Bs := by
  induction k generalizing S D d X sums with
  | zero =>
    rw [partialSum_zero, add_zero]
    exact grows_pure hsums
  | succ k ih =>
    unfold Smith.sumSeries
    refine grows_bind (hterms S D d subset_rfl hd) fun S₁ ts h₁ hts => ?_
    have hzip := Except.forall₂_zip_and (hsums.imp fun B s hs => SumReads.mono hs h₁) hts
    refine grows_bind (grows_mapM_forall₂
      (I := fun S (B : ColumnBlock R n) (p : Option (Expr α) × Expr α) =>
        SumReads ρ X S B p.1 ∧ Reads ρ (ofMatrix (B.project (D * V * Dᵀ))) S p.2)
      (Q := fun S => SumReads ρ (X + D * V * Dᵀ) S) hzip
      (fun _ _ _ _ hS hp => ⟨hp.1.mono hS, hp.2.mono hS⟩) (fun _ _ _ _ hS hs => hs.mono hS)
      fun S' B p _ hp => h.grows_addTerm hp.1 hp.2) fun S₂ sums' h₂ hsums' => ?_
    have hsum : X + D * V * Dᵀ + partialSum A (A * D * V * (A * D)ᵀ) k =
        X + partialSum A (D * V * Dᵀ) (k + 1) := by
      rw [Matrix.transpose_mul, ← congruence_partialSum_add, ← partialSum_congruence, add_assoc,
        add_comm (_ * _)]
      simp only [Matrix.mul_assoc]
    -- what the next factor is depends on whether there is one already
    have hnext (S₃ : Set (Expr α)) (d' : Expr α) (h₃ : S₂ ⊆ S₃) (hd' : Reads ρ (ofMatrix (A * D)) S₃ d') :
        Grows (Readable ρ) S₃ (Smith.sumSeries a terms k (some d') sums') fun S' =>
          List.Forall₂ (SumReads ρ (X + partialSum A (D * V * Dᵀ) (k + 1)) S') Bs := by
      have hS := (h₁.trans h₂).trans h₃
      rw [← hsum]
      exact ih (ha.mono hS) (fun S' D d hS' => hterms S' D d (hS.trans hS')) (.factor hd')
        (hsums'.imp fun B s hs => SumReads.mono hs h₃)
    have ha₂ := ha.mono (h₁.trans h₂)
    cases hd with
    | identity => exact grows_bind (grows_pure (by rwa [mul_one])) hnext
    | factor hd => exact grows_bind (h.grows_matmul ha₂ (hd.mono (h₁.trans h₂))) hnext

/-- The whole of a term. -/
theorem termsRead_fullTerm (hv : Reads ρ (ofMatrix V) S v) :
    TermsRead ρ [.identity R n] V S (Smith.fullTerm v) := by
  intro S' D d hS hd
  cases hd with
  | identity =>
    rw [one_mul, transpose_one, mul_one]
    exact grows_pure (.cons (by rw [ColumnBlock.project_identity]; exact hv.mono hS) .nil)
  | factor hd =>
    refine grows_bind (h.grows_congruence hd (hv.mono hS)) fun S₁ t h₁ ht => ?_
    exact grows_pure (.cons (by rwa [ColumnBlock.project_identity]) .nil)

/-- The projections of a term, without the term itself. -/
theorem termsRead_blockTerms {blocks : List (Expr α)} (hv : Reads ρ (ofMatrix V) S v)
    (hblocks : List.Forall₂ (fun B e => Reads ρ (ofMatrix B.entries) S e) Bs blocks) :
    TermsRead ρ Bs V S (Smith.blockTerms v blocks) := by
  intro S' D d hS hd
  have hproject (B : ColumnBlock R n) :
      B.project (D * V * Dᵀ) = B.entriesᵀ * D * V * (B.entriesᵀ * D)ᵀ := by
    rw [ColumnBlock.project, Matrix.transpose_mul, transpose_transpose]
    simp only [Matrix.mul_assoc]
  refine grows_mapM_forall₂ (I := fun S (B : ColumnBlock R n) e => Reads ρ (ofMatrix B.entries) S e)
    (Q := fun S (B : ColumnBlock R n) t => Reads ρ (ofMatrix (B.project (D * V * Dᵀ))) S t)
    (hblocks.imp fun B e he => he.mono hS) (fun _ _ _ _ hS he => he.mono hS)
    (fun _ _ _ _ hS ht => ht.mono hS) fun S₁ B e h₁ he => ?_
  have hterm (S₂ : Set (Expr α)) (w : Expr α) (h₂ : S₁ ⊆ S₂)
      (hw : Reads ρ (ofMatrix (B.entriesᵀ * D)) S₂ w) :
      Grows (Readable ρ) S₂ (w.congruence v) (Reads ρ (ofMatrix (B.project (D * V * Dᵀ)))) := by
    rw [hproject]
    exact h.grows_congruence hw (hv.mono ((hS.trans h₁).trans h₂))
  cases hd with
  | identity =>
    refine grows_bind (h.grows_transpose he) fun S₂ w h₂ hw => ?_
    exact hterm S₂ w h₂ (by rwa [Matrix.mul_one])
  | factor hd =>
    refine grows_bind (h.grows_transpose he) fun S₂ et h₂ het => ?_
    exact grows_bind (h.grows_matmul het (hd.mono (h₁.trans h₂))) fun S₃ w h₃ hw =>
      hterm S₃ w (h₂.trans h₃) hw

/-! ## The low-rank equation -/

/-- Without `H` the answer is the sum itself. -/
theorem grows_fullAnswer {X : Matrix (Fin n) (Fin n) R} {sums : List (Option (Expr α))}
    (hsums : List.Forall₂ (SumReads ρ X S) [.identity R n] sums) :
    Grows (Readable ρ) S (match sums.head?.join with
      | some y => pure y
      | none => Expr.zeros (.square n)) (Reads ρ (ofMatrix X)) := by
  cases hsums with
  | @cons _ sum _ _ hsum hrest =>
    cases hrest
    cases sum with
    | none =>
      have hX : X = 0 := hsum
      rw [hX]
      exact h.grows_zeros n n
    | some y =>
      rw [← ColumnBlock.project_identity X]
      exact grows_pure hsum

/-- Sums that are still empty have the width of their block. -/
theorem grows_blockAnswers {X : Matrix (Fin n) (Fin n) R} {sums : List (Option (Expr α))}
    (hsums : List.Forall₂ (SumReads ρ X S) Bs sums) :
    Grows (Readable ρ) S ((sums.zip (Bs.map (·.width))).mapM fun (sum, width) =>
      match sum with
      | some y => pure y
      | none => Expr.zeros (.square width)) fun S' =>
        List.Forall₂ (fun B y => Reads ρ (ofMatrix (B.project X)) S' y) Bs := by
  have hwidths : List.Forall₂ (fun (B : ColumnBlock R n) w => B.width = w) Bs (Bs.map (·.width)) :=
    List.forall₂_map_right_iff.2 (List.forall₂_same.2 fun _ _ => rfl)
  refine grows_mapM_forall₂
    (I := fun S (B : ColumnBlock R n) (p : Option (Expr α) × Nat) => SumReads ρ X S B p.1 ∧ B.width = p.2)
    (Q := fun S (B : ColumnBlock R n) y => Reads ρ (ofMatrix (B.project X)) S y)
    (Except.forall₂_zip_and hsums hwidths) (fun _ _ _ _ hS hp => ⟨hp.1.mono hS, hp.2⟩)
    (fun _ _ _ _ hS hy => hy.mono hS) fun S₁ B p h₁ hp => ?_
  obtain ⟨sum, width⟩ := p
  obtain ⟨hsum, hwidth⟩ := hp
  cases hwidth
  cases sum with
  | none =>
    have hX : X = 0 := hsum
    rw [hX, B.project_zero]
    exact h.grows_zeros B.width B.width
  | some y => exact grows_pure hsum

/-- The method for the low-rank equation builds the answer for the sum of the first `k` terms. -/
theorem grows_smithLowRank {i : LowRankInputs α} {v : Dense R} {c H : Option (Dense R)}
    (hi : i.ReadAs ρ S A v c H) (k : Nat) :
    Grows (Readable ρ) S (Smith.lowRank i k)
      (Reads ρ (LowRankDle.answer H i.hBlocks (partialSum A (LowRankDle.rhs K n v c) k))) := by
  obtain ⟨m, V, C, hv, hC, hrhs⟩ := hi.exists_factor K
  rw [hrhs]
  refine grows_bind (h.grows_symmetrize hv) fun S₁ w h₁ hw => ?_
  refine grows_bind (h.grows_hSplit (hi.mono h₁).readsH hi.rowsH) fun S₂ blocks h₂ hblocks => ?_
  have hC₂ := hC.mono (h₁.trans h₂)
  obtain ⟨ha₂, -, -, hH₂, -, -, -⟩ := hi.mono (h₁.trans h₂)
  have hw₂ := hw.mono h₂
  obtain ⟨a, v, c, o, widths⟩ := i
  have hshape : a.shape = .square n := h.shape ha₂.reads
  cases hH₂ with
  | none =>
    refine grows_bind (h.grows_sumSeries ha₂ (h.termsRead_fullTerm hw₂) k hC₂
      (.cons (b := none) rfl .nil)) fun S₃ sums h₃ hsums => ?_
    rw [zero_add] at hsums
    rw [hshape]
    exact h.grows_fullAnswer hsums
  | @some e d he =>
    have hblocks : List.Forall₂ (fun B e => Reads ρ (ofMatrix B.entries) S₂ e)
      (d.columnBlocks n 0 widths) blocks := hblocks
    have hempty : List.Forall₂ (SumReads ρ (0 : Matrix (Fin n) (Fin n) R) S₂) (d.columnBlocks n 0 widths)
        (blocks.map fun _ => none) := List.forall₂_map_right_iff.2 (hblocks.imp fun _ _ _ => rfl)
    refine grows_bind (h.grows_sumSeries ha₂ (h.termsRead_blockTerms hw₂ hblocks) k hC₂ hempty)
      fun S₃ sums h₃ hsums => ?_
    rw [zero_add] at hsums
    have hanswers := h.grows_blockAnswers hsums
    rw [map_width_columnBlocks] at hanswers
    refine grows_bind hanswers fun S₄ ys h₄ hys => ?_
    exact h.grows_diagcat (List.forall₂_map_left_iff.2 hys)

end Reading

end

end Lyapunov
