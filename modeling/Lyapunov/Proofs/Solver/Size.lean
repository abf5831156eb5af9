/-
The size of what Smith's method builds for the full equation. A step creates the same number of nodes however
many there are already, and the last step with doubling prepares a next one that is not part of the answer.
So the graph is linear in the number of steps, also where the number of terms is exponential.
-/
import Lyapunov.Proofs.Func.Length
import Lyapunov.Proofs.Graph.Numbers
import Lyapunov.Proofs.Solver.Made
import Lyapunov.Proofs.Solver.Smith

namespace Lyapunov.Smith

open Build Lyapunov.Dense Matrix

/-- How many nodes there are in the graph of the answer for the full equation, with the symbols for `A` and
`V`. Without steps `A` is not part of it. -/
def Settings.size : Settings → Nat
  | ⟨0, _⟩ => 4
  | ⟨k + 1, false⟩ => 4 * (k + 1) + 5
  | ⟨k + 1, true⟩ => 9 * (k + 1)

/-- How many nodes a step creates. -/
def stepSize : Bool → Nat
  | false => 4
  | true => 9

variable {α : Type} {a v p : Expr α} {S : Set (Expr α)}

/-! ## Steps -/

/-- `a p a' + v`, which a step with doubling builds for the sum and for the right-hand side. -/
def advance (a p v : Expr α) : Build (Expr α) := do (← a.congruence p).add v

theorem iterate_plain_succ (k : Nat) :
    iterate false (k + 1) a v p = (do
      let p ← advance a p v
      iterate false k a v p) := rfl

theorem iterate_doubling_succ (k : Nat) :
    iterate true (k + 1) a v p = (do
      let p ← advance a p v
      let v ← advance a v v
      let a ← a.matmul a
      iterate true k a v p) := rfl

theorem growsNode_advance (ha : a ∈ S) (hp : p ∈ S) (hv : v ∈ S) : GrowsNode S (advance a p v) :=
  grows_bind (growsNode_congruence ha hp) fun _ _ h hq => growsNode_binary hq (h hv) .add

theorem growsNode_iterate (freqDoubling : Bool) (k : Nat) (ha : a ∈ S) (hv : v ∈ S) (hp : p ∈ S) :
    GrowsNode S (iterate freqDoubling k a v p) := by
  induction k generalizing S a v p with
  | zero => exact grows_pure hp
  | succ k ih =>
    cases freqDoubling with
    | false =>
      rw [iterate_plain_succ]
      exact grows_bind (growsNode_advance ha hp hv) fun S₁ p' h₁ hp' => ih (h₁ ha) (h₁ hv) hp'
    | true =>
      rw [iterate_doubling_succ]
      refine grows_bind (growsNode_advance ha hp hv) fun S₁ p' h₁ hp' => ?_
      refine grows_bind (growsNode_advance (h₁ ha) (h₁ hv) (h₁ hv)) fun S₂ v' h₂ hv' => ?_
      refine grows_bind (growsNode_binary (h₂ (h₁ ha)) (h₂ (h₁ ha)) .matmul) fun S₃ a' h₃ ha' => ?_
      exact ih ha' (h₃ hv') (h₃ (h₂ hp'))

theorem numbers_advance (a p v : Expr α) (s : Nat) :
    ((advance a p v).run s).1.numbers = a.numbers ∪ p.numbers ∪ v.numbers ∪ Finset.Ico s (s + 4) := by
  have h : ((advance a p v).run s).1.numbers =
      insert (s + 3) (((a.congruence p).run s).1.numbers ∪ v.numbers) := rfl
  rw [h, Expr.numbers_congruence]
  ext i
  simp only [Finset.mem_insert, Finset.mem_union, Finset.mem_Ico]
  grind

/-- The answer has the data and the nodes of all steps below it, except that of the last step it has only the
nodes of the sum. -/
theorem numbers_iterate (freqDoubling : Bool) (k s : Nat) :
    ((iterate freqDoubling (k + 1) a v p).run s).1.numbers = a.numbers ∪ v.numbers ∪ p.numbers ∪
      Finset.Ico s (s + stepSize freqDoubling * k + 4) := by
  -- by induction on the steps: all that the first one creates is used by the second
  induction k generalizing a v p s with
  | zero =>
    have hlast : ((iterate freqDoubling 1 a v p).run s).1 = ((advance a p v).run s).1 := by
      cases freqDoubling <;> rfl
    rw [hlast, numbers_advance, Nat.mul_zero, Nat.add_zero, Finset.union_right_comm a.numbers]
  | succ k ih =>
    cases freqDoubling with
    | false =>
      have hstep : ((iterate false (k + 2) a v p).run s).1 =
          ((iterate false (k + 1) a v ((advance a p v).run s).1).run (s + 4)).1 := rfl
      rw [hstep, ih, numbers_advance]
      ext i
      simp only [stepSize, Finset.mem_union, Finset.mem_Ico]
      grind
    | true =>
      have hstep : ((iterate true (k + 2) a v p).run s).1 =
          ((iterate true (k + 1) ((a.matmul a).run (s + 8)).1 ((advance a v v).run (s + 4)).1
            ((advance a p v).run s).1).run (s + 9)).1 := rfl
      rw [hstep, ih, numbers_advance, numbers_advance, Expr.numbers_matmul]
      ext i
      simp only [stepSize, Finset.mem_insert, Finset.mem_union, Finset.mem_Ico]
      grind

/-! ## The answer -/

variable [Scalar α]

theorem growsNode_dle (ha : a ∈ S) (hv : v ∈ S) (settings : Settings) : GrowsNode S (dle a v settings) :=
  grows_bind (growsNode_symmetrize hv) fun _ _ h hw => growsNode_iterate _ _ (h ha) hw hw

theorem numbers_dle_zero (freqDoubling : Bool) (s : Nat) :
    ((dle a v ⟨0, freqDoubling⟩).run s).1.numbers = v.numbers ∪ Finset.Ico s (s + 3) :=
  Expr.numbers_symmetrize v s

theorem numbers_dle_succ (k : Nat) (freqDoubling : Bool) (s : Nat) :
    ((dle a v ⟨k + 1, freqDoubling⟩).run s).1.numbers =
      a.numbers ∪ v.numbers ∪ Finset.Ico s (s + (stepSize freqDoubling * k + 7)) := by
  have h : ((dle a v ⟨k + 1, freqDoubling⟩).run s).1 = ((iterate freqDoubling (k + 1) a
      (v.symmetrize.run s).1 (v.symmetrize.run s).1).run (s + 3)).1 := rfl
  rw [h, numbers_iterate, Expr.numbers_symmetrize]
  ext i
  simp only [Finset.mem_union, Finset.mem_Ico]
  grind

/-- Symbols and consecutive numbers after them. -/
theorem card_union_Ico {T : Finset Nat} {s : Nat} (h : ∀ i ∈ T, i < s) (m : Nat) :
    (T ∪ Finset.Ico s (s + m)).card = T.card + m := by
  rw [Finset.card_union_of_disjoint, Nat.card_Ico, Nat.add_sub_cancel_left]
  exact Finset.disjoint_left.2 fun i hi hi' => absurd (h i hi) (not_lt.2 (Finset.mem_Ico.1 hi').1)

section

variable (ha : a.isSymbol = true) (hv : v.isSymbol = true) (hne : a.id ≠ v.id)

include ha hv hne

theorem isDag_dle {s : Nat} (has : a.id < s) (hvs : v.id < s) (settings : Settings) :
    IsDag [((dle a v settings).run s).1] := by
  have hoperands {e : Expr α} (he : e.isSymbol = true) : ∀ x ∈ e.operands, x ∈ ({a, v} : Set (Expr α)) := by
    cases e with
    | symbol => simp [Expr.operands]
    | constant | unary | binary => cases he
  have hgraph : IsGraph ({a, v} : Set (Expr α)) := by
    refine ⟨?_, ?_⟩
    · rintro e (rfl | rfl)
      exacts [hoperands ha, hoperands hv]
    · rintro x (rfl | rfl) y (rfl | rfl) h
      exacts [rfl, absurd h hne, absurd h.symm hne, rfl]
  have hstore : Store (fun _ => True) s ({a, v} : Set (Expr α)) := by
    refine ⟨hgraph, ?_, fun _ _ => trivial⟩
    rintro e (rfl | rfl)
    exacts [has, hvs]
  obtain ⟨S', -, hS', hmem⟩ := growsNode_dle (.inl rfl) (.inr rfl) settings s hstore
  exact hS'.graph.isDag fun r hr => List.mem_singleton.1 hr ▸ hmem

theorem nodeCount_dle {s : Nat} (has : a.id < s) (hvs : v.id < s) (settings : Settings) :
    ((dle a v settings).run s).1.nodeCount = settings.size := by
  rw [Expr.nodeCount_eq_card (isDag_dle ha hv hne has hvs settings)]
  obtain ⟨_ | k, freqDoubling⟩ := settings
  · rw [numbers_dle_zero, Expr.numbers_of_isSymbol hv, card_union_Ico (by simpa using hvs),
      Finset.card_singleton]
    rfl
  · have hsymbols : ∀ i ∈ ({a.id} ∪ {v.id} : Finset Nat), i < s := by
      intro i hi
      simp only [Finset.mem_union, Finset.mem_singleton] at hi
      omega
    have hpair : ({a.id} ∪ {v.id} : Finset Nat).card = 2 := Finset.card_pair hne
    rw [numbers_dle_succ, Expr.numbers_of_isSymbol ha, Expr.numbers_of_isSymbol hv,
      card_union_Ico hsymbols, hpair]
    cases freqDoubling <;> simp only [stepSize, Settings.size] <;> omega

end

/-- The tape of the function of the data has an instruction for each node of the answer. -/
theorem length_tape_dle {n s s' : Nat} {settings : Settings} {name : String} {f : Func α}
    (hf : (Problem.function name (Dle.square n) fun i => dle i.a i.v settings).run.run s = (.ok f, s')) :
    f.tape.length = settings.size := by
  have hmake : Func.make name (Problem.declared α (Dle.square n) s).1.2
      [("p", ((dle (.symbol s "A" (.square n)) (.symbol (s + 1) "V" (.square n)) settings).run (s + 2)).1)] =
      .ok f := congrArg Prod.fst hf
  obtain ⟨-, -, houtputs⟩ := Func.make_eq_ok hmake
  have hne : (Expr.symbol s "A" (.square n) : Expr α).id ≠ (Expr.symbol (s + 1) "V" (.square n) : Expr α).id :=
    Nat.succ_ne_self s |>.symm
  rw [Func.length_tape_of_outputs (isDag_dle rfl rfl hne (Nat.lt_add_of_pos_right Nat.two_pos)
    (Nat.lt_succ_self _) settings) (by rw [houtputs]; rfl)]
  exact nodeCount_dle rfl rfl hne (Nat.lt_add_of_pos_right Nat.two_pos) (Nat.lt_succ_self _) settings

theorem exists_hasFunction_dle (n : Nat) (settings : Settings) (name : String) (s : Nat) :
    ∃ (f : Func α) (s' : Nat), Solver.HasFunction name "fixed_smith" (Dle.square n)
      (fun i => dle i.a i.v settings) (settings.AskedBy (dlePlugin α).schemas) s f s' := by
  obtain ⟨hshape, f, hf⟩ := (Dle.Builds.smith settings).exists_make (α := α) (e := .square n) rfl name
    (Problem.output Dle) s
  exact ⟨f, _, (Problem.run_function name (Dle.square n) _ s).trans (congrArg (·, _) hf),
    fun o ho => (offers_dle ho).makes (Dle.validate_eq_ok.2 rfl) hshape hf⟩

/-- The graph of the answer for symbols, and the tape of the solver for any number of rows, have the same size.
It is linear in the number of steps; in exact arithmetic the value is a sum of all the terms, of which there
are exponentially many with doubling. -/
theorem size_linear (α : Type) [Scalar α] (settings : Settings) :
    (∀ (a v : Expr α) (s : Nat), a.isSymbol = true → v.isSymbol = true → a.id ≠ v.id → a.id < s → v.id < s →
      ((dle a v settings).run s).1.nodeCount = settings.size) ∧
    (settings.iter < 2 ^ 63 → settings.AskedBy (dlePlugin α).schemas settings.options) ∧
    (∀ (n : Nat) (name : String) (s : Nat), ∃ (f : Func α) (s' : Nat),
      Solver.HasFunction name "fixed_smith" (Dle.square n) (fun i => dle i.a i.v settings)
        (settings.AskedBy (dlePlugin α).schemas) s f s' ∧
      f.tape.length = settings.size) ∧
    ∀ (K : Type) [ExactScalar K] (n : Nat) (name : String) (s : Nat), ∃ (f : Func K) (s' : Nat),
      IsDleFunction n settings name s f s' ∧ f.tape.length = settings.size ∧
      ∀ (A V : Matrix (Fin n) (Fin n) K) (args : List (Argument K)),
        args.map (·.toDense) = [ofMatrix A, ofMatrix V] →
          f.eval args = .ok [ofMatrix (partialSum A (symmetricPart K V) settings.terms)] := by
  refine ⟨fun a v s ha hv hne has hvs => nodeCount_dle ha hv hne has hvs settings, settings.askedBy_options α,
    fun n name s => ?_, fun K _ n name s => ?_⟩
  · obtain ⟨f, s', hf⟩ := exists_hasFunction_dle (α := α) n settings name s
    exact ⟨f, s', hf, length_tape_dle hf.run⟩
  · obtain ⟨f, s', hf⟩ := exists_isFunction_dle (K := K) n settings name s
    exact ⟨f, s', isDleFunction_of hf, length_tape_dle hf.run, fun A V args => eval_dle hf⟩

/-- With ten doublings 1024 terms take 90 nodes. -/
theorem size_ten_doublings :
    ((dle (.symbol 0 "A" (.square 3)) (.symbol 1 "V" (.square 3)) ⟨10, true⟩ : Build (Expr ℚ)).run
      2).1.nodeCount = 90 ∧
    ∃ (f : Func ℚ) (s' : Nat),
      Solver.Makes "f" "fixed_smith" (Dle.square 1) (Settings.options ⟨10, true⟩) 0 f s' ∧
      f.tape.length = 90 ∧ f.eval [.scalar 1, .scalar 3] = .ok [.ofScalar 3072] := by
  obtain ⟨hcount, hasked, -, hexact⟩ := size_linear ℚ ⟨10, true⟩
  obtain ⟨f, s', hf, hlength, heval⟩ := hexact ℚ 1 "f" 0
  refine ⟨hcount _ _ 2 rfl rfl (by decide) (by decide) (by decide), f, s', hf.makes _ (hasked (by decide)),
    hlength, ?_⟩
  have hvalue := heval !![1] !![3] [.scalar 1, .scalar 3]
    (congrArg₂ (fun a v => [a, v]) (ofScalar_eq_ofMatrix 1) (ofScalar_eq_ofMatrix 3))
  have hone : (!![1] : Matrix (Fin 1) (Fin 1) ℚ) = 1 := by decide
  have hsum : partialSum (!![1] : Matrix (Fin 1) (Fin 1) ℚ) (symmetricPart ℚ !![3])
      (Settings.terms ⟨10, true⟩) = !![3072] := by
    rw [hone, partialSum]
    simp only [one_pow, transpose_one, one_mul, mul_one, Finset.sum_const, Finset.card_range, Settings.terms]
    decide +kernel
  rw [hvalue, hsum, ofScalar_eq_ofMatrix]

end Lyapunov.Smith
