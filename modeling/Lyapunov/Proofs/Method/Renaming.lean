/-
Methods on data of one form. From nodes of one form the methods build nodes of one form, for both classes of
equations and with any factors.
-/
import Lyapunov.Method.Registry
import Lyapunov.Proofs.Expr.Renaming

namespace Lyapunov

open Build

variable {α : Type} {ρ : Renaming}

/-! ## The data of the low-rank equation -/

/-- Data of one form: the same factors are absent, and `H` has the same blocks. -/
structure LowRankInputs.Alike (ρ : Renaming) (i i' : LowRankInputs α) : Prop where
  a : Expr.Alike ρ id i.a i'.a
  v : Expr.Alike ρ id i.v i'.v
  c : Option.Rel (Expr.Alike ρ id) i.c i'.c
  h : Option.Rel (Expr.Alike ρ id) i.h i'.h
  hBlocks : i'.hBlocks = i.hBlocks

namespace LowRankInputs.Alike

variable [Zero α] [One α] {i i' : LowRankInputs α} (hi : i.Alike ρ i')

include hi

theorem parallel_hSplit : Parallel ρ i.hSplit i'.hSplit (List.Forall₂ (Expr.Alike ρ id)) := by
  obtain ⟨a, v, c, h, widths⟩ := i
  obtain ⟨a', v', c', h', widths'⟩ := i'
  obtain ⟨-, -, -, hh, hwidths⟩ := hi
  cases hwidths
  cases hh with
  | none => exact parallel_pure .nil
  | some hh => exact parallel_horzsplitFrom hh 0 _

theorem alike_project {p p' : Expr α} (hp : Expr.Alike ρ id p p') :
    Build.Alike ρ id (i.project p) (i'.project p') := by
  have hblocks : Build.Alike ρ id
      (do Expr.diagcat (← (← i.hSplit).mapM fun hk => do Expr.congruence (← hk.transpose) p))
      (do Expr.diagcat (← (← i'.hSplit).mapM fun hk => do Expr.congruence (← hk.transpose) p')) := by
    refine parallel_bind hi.parallel_hSplit fun _ _ hsplit => ?_
    refine parallel_bind (parallel_mapM hsplit fun _ _ hk => ?_) fun _ _ hbs => alike_diagcat hbs
    exact parallel_bind (alike_newUnary hk .transpose) fun _ _ ht => alike_congruence ht hp
  obtain ⟨a, v, c, h, widths⟩ := i
  obtain ⟨a', v', c', h', widths'⟩ := i'
  cases hi.h with
  | none => exact parallel_pure hp
  | some => exact hblocks

end LowRankInputs.Alike

/-! ## Smith's method -/

namespace Smith

variable {a a' v v' : Expr α} (ha : Expr.Alike ρ id a a') (hv : Expr.Alike ρ id v v')

section Series

theorem parallel_addTerm {sum sum' : Option (Expr α)} {term term' : Expr α}
    (hsum : Option.Rel (Expr.Alike ρ id) sum sum') (hterm : Expr.Alike ρ id term term') :
    AlikeOption ρ id (addTerm sum term) (addTerm sum' term') := by
  cases hsum with
  | none => exact parallel_pure (.some hterm)
  | some hs => exact parallel_bind (alike_newBinary hs hterm .add) fun _ _ hd => parallel_pure (.some hd)

/-- Terms of one form for factors of one form. -/
def ParallelTerms (ρ : Renaming) (terms terms' : Option (Expr α) → Build (List (Expr α))) : Prop :=
  ∀ d d', Option.Rel (Expr.Alike ρ id) d d' →
    Parallel ρ (terms d) (terms' d') (List.Forall₂ (Expr.Alike ρ id))

include ha in
/-- Sums of one form stay so when terms of one form are added. -/
theorem parallel_sumSeries {terms terms' : Option (Expr α) → Build (List (Expr α))}
    (hterms : ParallelTerms ρ terms terms') (n : Nat) {d d' : Option (Expr α)}
    (hd : Option.Rel (Expr.Alike ρ id) d d') {sums sums' : List (Option (Expr α))}
    (hsums : List.Forall₂ (Option.Rel (Expr.Alike ρ id)) sums sums') :
    Parallel ρ (sumSeries a terms n d sums) (sumSeries a' terms' n d' sums')
      (List.Forall₂ (Option.Rel (Expr.Alike ρ id))) := by
  induction n generalizing d d' sums sums' with
  | zero => exact parallel_pure hsums
  | succ n ih =>
    refine parallel_bind (hterms d d' hd) fun ts ts' hts => ?_
    refine parallel_bind (parallel_mapM (Except.forall₂_zip_zip hsums hts) fun p q hpq =>
      parallel_addTerm hpq.1 hpq.2) fun next next' hnext => ?_
    cases hd with
    | none => exact parallel_bind (parallel_pure ha) fun _ _ hnew => ih (.some hnew) hnext
    | some he => exact parallel_bind (alike_newBinary ha he .matmul) fun _ _ hnew => ih (.some hnew) hnext

include hv in
theorem parallelTerms_fullTerm : ParallelTerms ρ (fullTerm v) (fullTerm v') := by
  intro d d' hd
  cases hd with
  | none => exact parallel_pure (.cons hv .nil)
  | some he => exact parallel_bind (alike_congruence he hv) fun _ _ hd => parallel_pure (.cons hd .nil)

include hv in
theorem parallelTerms_blockTerms {blocks blocks' : List (Expr α)}
    (hblocks : List.Forall₂ (Expr.Alike ρ id) blocks blocks') :
    ParallelTerms ρ (blockTerms v blocks) (blockTerms v' blocks') := by
  intro d d' hd
  refine parallel_mapM hblocks fun h h' hh => ?_
  cases hd with
  | none => exact parallel_bind (alike_newUnary hh .transpose) fun _ _ ht => alike_congruence ht hv
  | some he =>
    refine parallel_bind (alike_newUnary hh .transpose) fun _ _ ht => ?_
    exact parallel_bind (alike_newBinary ht he .matmul) fun _ _ hw => alike_congruence hw hv

include ha hv in
theorem alike_iterate (freqDoubling : Bool) (n : Nat) {p p' : Expr α} (hp : Expr.Alike ρ id p p') :
    Build.Alike ρ id (iterate freqDoubling n a v p) (iterate freqDoubling n a' v' p') := by
  induction n generalizing a a' v v' p p' with
  | zero => exact parallel_pure hp
  | succ n ih =>
    unfold iterate
    refine parallel_bind (alike_congruence ha hp) fun _ _ hap => ?_
    refine parallel_bind (alike_newBinary hap hv .add) fun _ _ hnext => ?_
    cases freqDoubling with
    | false => exact ih ha hv hnext
    | true =>
      refine parallel_bind (alike_congruence ha hv) fun _ _ hav => ?_
      refine parallel_bind (alike_newBinary hav hv .add) fun _ _ hnextV => ?_
      refine parallel_bind (alike_newBinary ha ha .matmul) fun _ _ hnextA => ?_
      exact ih hnextA hnextV hnext

end Series

variable [Scalar α]

include ha hv in
theorem alike_dle (settings : Settings) : Build.Alike ρ id (dle a v settings) (dle a' v' settings) :=
  parallel_bind (alike_symmetrize hv) fun _ _ hw => alike_iterate ha hw _ _ hw

theorem alike_lowRank {i i' : LowRankInputs α} (hi : i.Alike ρ i') (k : Nat) :
    Build.Alike ρ id (lowRank i k) (lowRank i' k) := by
  refine parallel_bind (alike_symmetrize hi.v) fun w w' hw => ?_
  refine parallel_bind hi.parallel_hSplit fun blocks blocks' hblocks => ?_
  obtain ⟨a, v, c, h, widths⟩ := i
  obtain ⟨a', v', c', h', widths'⟩ := i'
  obtain ⟨ha, -, hc, hh, hwidths⟩ := hi
  cases hwidths
  cases hh with
  | none =>
    refine parallel_bind (parallel_sumSeries ha (parallelTerms_fullTerm hw) k hc (.cons .none .nil))
      fun sums sums' hsums => ?_
    have hsum : Option.Rel (Expr.Alike ρ id) sums.head?.join sums'.head?.join := by
      cases hsums with
      | nil => exact .none
      | cons h _ => exact h
    generalize sums.head?.join = sum, sums'.head?.join = sum' at hsum
    cases hsum with
    | none =>
      show Build.Alike ρ id (Expr.zeros a.shape) (Expr.zeros a'.shape)
      rw [Expr.Alike.shape ha]
      exact alike_zeros rfl a.shape
    | some hy => exact parallel_pure hy
  | some _ =>
    have hnone : List.Forall₂ (Option.Rel (Expr.Alike ρ id)) (blocks.map fun _ => (none : Option (Expr α)))
        (blocks'.map fun _ => none) := List.rel_map (fun _ _ _ => .none) hblocks
    refine parallel_bind (parallel_sumSeries ha (parallelTerms_blockTerms hw hblocks) k hc hnone)
      fun sums sums' hsums => ?_
    have hwidths : List.Forall₂ (· = ·) widths widths := List.forall₂_same.2 fun _ _ => rfl
    refine parallel_bind (parallel_mapM (Except.forall₂_zip_zip hsums hwidths) ?_) fun _ _ hbs =>
      alike_diagcat hbs
    rintro ⟨sum, width⟩ ⟨sum', width'⟩ ⟨hsum, hwidth⟩
    cases hwidth
    cases hsum with
    | none => exact alike_zeros rfl _
    | some hy => exact parallel_pure hy

end Smith

/-! ## The direct method -/

namespace Kronecker

variable [Scalar α] {a a' v v' : Expr α} (ha : Expr.Alike ρ id a a') (hv : Expr.Alike ρ id v v')

include ha hv

theorem alike_solve : Build.Alike ρ id (solve a v) (solve a' v') := by
  unfold solve
  rw [ha.shape]
  refine parallel_bind (alike_newConstant_id _) fun _ _ hidentity => ?_
  refine parallel_bind (alike_newBinary ha ha .kron) fun _ _ hkron => ?_
  refine parallel_bind (alike_sub hidentity hkron) fun _ _ hsystem => ?_
  refine parallel_bind (alike_vectorize hv) fun _ _ hrhs => ?_
  refine parallel_bind (alike_newBinary hsystem hrhs .solve) fun _ _ hsolution => ?_
  exact alike_reshape hsolution _

theorem alike_dle : Build.Alike ρ id (dle a v) (dle a' v') :=
  parallel_bind (alike_symmetrize hv) fun _ _ hw => alike_solve ha hw

omit ha hv

theorem alike_lowRank {i i' : LowRankInputs α} (hi : i.Alike ρ i') :
    Build.Alike ρ id (lowRank i) (lowRank i') := by
  refine parallel_bind (alike_symmetrize hi.v) fun w w' hw => ?_
  have hrest {rhs rhs' : Expr α} (hrhs : Expr.Alike ρ id rhs rhs') : Build.Alike ρ id
      (do i.project (← solve i.a rhs)) (do i'.project (← solve i'.a rhs')) :=
    parallel_bind (alike_solve hi.a hrhs) fun _ _ hp => hi.alike_project hp
  obtain ⟨a, v, c, h, widths⟩ := i
  obtain ⟨a', v', c', h', widths'⟩ := i'
  cases hi.c with
  | none => exact parallel_bind (parallel_pure hw) fun _ _ hrhs => hrest hrhs
  | some hc => exact parallel_bind (alike_congruence hc hw) fun _ _ hrhs => hrest hrhs

end Kronecker

end Lyapunov
