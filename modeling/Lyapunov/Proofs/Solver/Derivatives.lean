/-
The derivatives of solvers. Every solver has forward derivatives for any number of directions. It has
reverse derivatives as well, unless it uses the direct method for a matrix `A` without rows: the adjoint of
the Kronecker square of `A` would have to be contracted with an empty factor.
-/
import Lyapunov.Proofs.Derivative.Agreement
import Lyapunov.Proofs.Derivative.Contraction
import Lyapunov.Proofs.Solver.Totality

namespace Lyapunov

open Build Lyapunov.Dense

/-! ## What the methods build -/

namespace Expr

variable {α : Type}

theorem handsDown_of_isSymbol {e : Expr α} (h : e.isSymbol = true) : e.HandsDown := by
  cases e with
  | symbol => trivial
  | _ => cases h

theorem kept_handsDown : Kept (HandsDown : Expr α → Prop) where
  constant _ _ := trivial
  unary _ _ _ _ _ := trivial
  add _ _ _ _ _ _ := trivial
  matmul _ _ _ _ _ _ := trivial

theorem keptBySystem_handsDown (n : Nat) : KeptBySystem n (HandsDown : Expr α → Prop) where
  kron _ _ _ _ := trivial
  solve _ _ _ _ _ _ _ := trivial

end Expr

namespace Solver

/-! ## Any class of equations -/

section

variable {σ : Type} {ι : Type → Type} [Problem σ ι] {α : Type} [Scalar α]

/-- The derivatives of a solver for `n` rows of `A`, from nodes with the numbers `s'` on. -/
structure Differentiates (solver : Solver σ ι α) (n s' : Nat) : Prop where
  forward : ∀ k r, s' ≤ r → ∃ g r', (solver.forward k).run.run r = (.ok g, r')
  reverse : ∀ k r, s' ≤ r → ((∃ g r', (solver.reverse k).run.run r = (.ok g, r')) ↔
    k = 0 ∨ ¬ (solver.methodName = "simple" ∧ n = 0))
  /-- The seeds and results are shaped like what they belong to. -/
  isForward : ∀ k r g r', s' ≤ r → (solver.forward k).run.run r = (.ok g, r') →
    solver.function.IsDerivative g .forward k
  isReverse : ∀ k r g r', s' ≤ r → (solver.reverse k).run.run r = (.ok g, r') →
    solver.function.IsDerivative g .reverse k

namespace Sound

variable {solver : Solver σ ι α} {problem : σ} {n s s' : Nat} (h : solver.Sound problem n s s')

include h

omit [Scalar α] in
theorem handsDown : ∀ e ∈ solver.function.nodes, e.HandsDown :=
  (h.nodes Expr.kept_handsDown (fun _ => Expr.keptBySystem_handsDown n) fun _ ⟨p, hp, hpe⟩ =>
    hpe ▸ Expr.handsDown_of_isSymbol (solver.function.named.symbols p hp)).1

omit [Scalar α] in
/-- With equations to solve, or without a system, no Kronecker product is empty. -/
theorem contractible (hne : ¬ (solver.methodName = "simple" ∧ n = 0)) :
    ∀ e ∈ solver.function.nodes, e.Contractible :=
  (h.nodes Expr.kept_contractible
    (fun hdirect => Expr.keptBySystem_contractible (Nat.pos_of_ne_zero fun hn => hne ⟨hdirect, hn⟩))
    fun _ ⟨p, hp, hpe⟩ =>
      hpe ▸ Expr.contractible_of_isSymbol (solver.function.named.symbols p hp)).1

/-- The direct method without equations has no reverse derivative. -/
theorem not_exists_reverse (hdirect : solver.methodName = "simple") (hn : n = 0) {k r : Nat} (hk : 0 < k)
    (hr : s' ≤ r) : ¬ ∃ g r', (solver.reverse k).run.run r = (.ok g, r') := by
  obtain ⟨y, hy, -⟩ := h.output
  have hmem : (Problem.output σ, y) ∈ solver.function.outputs := by
    rw [hy]
    exact List.mem_singleton_self _
  obtain ⟨i, p, hp, hshape, hbelow⟩ := h.kron hdirect _ hmem
  refine Func.not_exists_reverse (h.numbered.mono hr) h.handsDown hp hmem hbelow ?_ hk
  rw [hshape, hn]
  rfl

theorem exists_reverse_iff (hnames : solver.function.Untagged .reverse) (k : Nat) {r : Nat} (hr : s' ≤ r) :
    (∃ g r', (solver.reverse k).run.run r = (.ok g, r')) ↔
      k = 0 ∨ ¬ (solver.methodName = "simple" ∧ n = 0) := by
  constructor
  · intro hexists
    rcases Nat.eq_zero_or_pos k with hk | hk
    · exact .inl hk
    · exact .inr fun ⟨hdirect, hn⟩ => h.not_exists_reverse hdirect hn hk hr hexists
  · rintro (rfl | hne)
    · exact Func.exists_reverse_zero _ r
    · exact (h.numbered.mono hr).exists_reverse (h.contractible hne) hnames k

theorem differentiates (hnames : ∀ mode, solver.function.Untagged mode) : solver.Differentiates n s' where
  forward k _ hr := (h.numbered.mono hr).exists_forward (hnames _) k
  reverse k _ hr := h.exists_reverse_iff (hnames _) k hr
  isForward _ _ _ _ hr hg := (h.numbered.mono hr).isDerivative_forward hg
  isReverse k _ g r' hr hg := by
    refine (h.numbered.mono hr).isDerivative_reverse (fun hk => ?_) hg
    exact h.contractible (((h.exists_reverse_iff (hnames _) k hr).1 ⟨g, r', hg⟩).resolve_left hk)

end Sound

end

/-! ## The two equations -/

section

variable {α : Type} [Scalar α] {s s' n : Nat}

omit [Scalar α] in
/-- The names of data and answers start with the word of no mode. -/
theorem untagged_of_subset {f : Func α} (h : f.inputNames ++ f.outputNames ⊆ ["a", "v", "c", "h", "p", "y"])
    (mode : Mode) : f.Untagged mode := by
  have hnames : ∀ name ∈ ["a", "v", "c", "h", "p", "y"], ¬ mode.word.toList <+: name.toList := by
    cases mode <;> decide
  exact fun name hname => hnames name (h hname)

omit [Scalar α] in
theorem untagged_dle {e : Dle} {solver : Solver Dle DleInputs α} (h : solver.Sound e n s s') (mode : Mode) :
    solver.function.Untagged mode := by
  refine untagged_of_subset ?_ mode
  rw [inputNames_dle h, h.outputNames]
  simp [Problem.output]

omit [Scalar α] in
theorem untagged_lowRank {e : LowRankDle} {solver : Solver LowRankDle LowRankInputs α}
    (h : solver.Sound e n s s') (mode : Mode) : solver.function.Untagged mode := by
  refine untagged_of_subset ?_ mode
  rw [inputNames_lowRank h, h.outputNames]
  cases e.c <;> cases e.h <;> simp [Problem.output]

/-- Every solver that was made has all forward derivatives, and all reverse derivatives but those of the
direct method for a matrix without rows. The derivatives have the inputs and outputs of the solver and, in
each direction, seeds and results of the same shapes. -/
theorem differentiates_of_make (name plugin : String) (o : Options) (s s' : Nat) :
    (∀ (e : Dle) (solver : Solver Dle DleInputs α),
      (make name plugin e o).run.run s = (.ok solver, s') →
        solver.function.inputShapes = [e.a, e.v] ∧ solver.function.outputShapes = [e.outputShape] ∧
          solver.Differentiates e.a.rows s') ∧
    (∀ (e : LowRankDle) (solver : Solver LowRankDle LowRankInputs α),
      (make name plugin e o).run.run s = (.ok solver, s') →
        solver.function.inputShapes = [e.a, e.v] ++ e.c.toList ++ e.h.toList ∧
          solver.function.outputShapes = [e.outputShape] ∧ solver.Differentiates e.a.rows s') := by
  refine ⟨fun e solver h => ?_, fun e solver h => ?_⟩
  · have hsound := Dle.sound h
    exact ⟨inputShapes_dle hsound, hsound.outputShapes, hsound.differentiates (untagged_dle hsound)⟩
  · have hsound := LowRankDle.sound h
    exact ⟨inputShapes_lowRank hsound, hsound.outputShapes, hsound.differentiates (untagged_lowRank hsound)⟩

end

/-- A solver for numbers, and one for an equation with both factors. -/
theorem differentiates_numbers :
    (∃ (solver : Solver Dle DleInputs ℚ) (s' : Nat),
      (make "f" "simple" (Dle.square 1) .empty).run.run 0 = (.ok solver, s') ∧ solver.Differentiates 1 s') ∧
    ∃ (solver : Solver LowRankDle LowRankInputs ℚ) (s' : Nat),
      (make "g" "fixed_smith" LowRankDle.twoBlocks (Smith.termOptions 2)).run.run 0 = (.ok solver, s') ∧
        solver.Differentiates 2 s' := by
  constructor
  · obtain ⟨solver, s', hmake⟩ := exists_make_dle (α := ℚ) 1 "f" 0
    exact ⟨solver, s', hmake, ((differentiates_of_make "f" "simple" .empty 0 s').1 _ solver hmake).2.2⟩
  · have hvalid : LowRankDle.twoBlocks.Valid := LowRankDle.validate_eq_ok.1 rfl
    have htwo : 2 < 2 ^ 63 := by decide
    obtain ⟨solver, s', hmake⟩ := Smith.exists_make_lowRank (K := ℚ) hvalid htwo "g" 0
    exact ⟨solver, s', hmake, ((differentiates_of_make "g" "fixed_smith" _ 0 s').2 _ solver hmake).2.2⟩

/-- For matrices without entries the direct method has a solver, but no reverse derivative in one direction. -/
theorem exists_not_reverse : ∃ (solver : Solver Dle DleInputs ℚ) (s' : Nat),
    (make "f" "simple" (Dle.square 0) .empty).run.run 0 = (.ok solver, s') ∧
      ¬ ∃ g r', (solver.reverse 1).run.run s' = (.ok g, r') := by
  obtain ⟨solver, s', hmake⟩ := exists_make_dle (α := ℚ) 0 "f" 0
  have hmethod := methodName_eq (plugin_name_eq hmake) (by decide)
  exact ⟨solver, s', hmake, (Dle.sound hmake).not_exists_reverse hmethod rfl Nat.one_pos le_rfl⟩

end Solver

end Lyapunov
