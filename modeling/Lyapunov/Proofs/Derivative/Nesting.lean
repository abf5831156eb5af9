/-
Derivatives of derivatives. A derivative is a function, and its derivative in the other mode exists as
well; but for a second derivative in the same mode the names are taken, by the seeds and results of the
first one. So the calls that do not fail are those that use each mode once at most, apart from calls for
no directions.
-/
import Mathlib.Data.List.Count
import Lyapunov.Proofs.Derivative.Reverse

namespace Lyapunov

variable {α : Type}

/-- The modes of differentiation. -/
inductive Mode where
  | forward
  | reverse
deriving DecidableEq

namespace Mode

/-- The word in the tags of the mode. -/
def word : Mode → String
  | forward => "fwd"
  | reverse => "adj"

/-- A name cannot start with the words of both modes. -/
theorem eq_of_prefix {mode mode' : Mode} {l : List Char} (h : mode.word.toList <+: l)
    (h' : mode'.word.toList <+: l) : mode = mode' := by
  have hlength : mode.word.toList.length = mode'.word.toList.length := by
    cases mode <;> cases mode' <;> decide
  have hword : mode.word.toList = mode'.word.toList := by
    rw [List.prefix_iff_eq_take.1 h, List.prefix_iff_eq_take.1 h', hlength]
  cases mode with
  | forward =>
    cases mode' with
    | forward => rfl
    | reverse => exact absurd hword (by decide)
  | reverse =>
    cases mode' with
    | forward => exact absurd hword (by decide)
    | reverse => rfl

/-- How many of the calls add directions of the mode. -/
def uses (mode : Mode) (calls : List (Mode × Nat)) : Nat :=
  calls.countP fun call => call.1 = mode ∧ 0 < call.2

theorem uses_cons (mode : Mode) (call : Mode × Nat) (calls : List (Mode × Nat)) :
    mode.uses (call :: calls) = mode.uses [call] + mode.uses calls := by
  rw [uses, ← List.singleton_append, List.countP_append]
  rfl

theorem uses_singleton (mode : Mode) (call : Mode × Nat) :
    mode.uses [call] = if call.1 = mode ∧ 0 < call.2 then 1 else 0 := by
  simp [uses, List.countP_singleton]

end Mode

/-- A computation in two steps that does not fail, but for its last step. -/
theorem TryBuild.exists_run_bind_ok {β γ : Type} {m : TryBuild β} {k : β → TryBuild γ} {n : Nat} :
    (∃ c n', (m >>= k).run.run n = (.ok c, n')) ↔
      ∃ b n₁, m.run.run n = (.ok b, n₁) ∧ ∃ c n', (k b).run.run n₁ = (.ok c, n') := by
  simp only [run_bind_eq_ok]
  exact ⟨fun ⟨c, n', b, n₁, hm, hk⟩ => ⟨b, n₁, hm, c, n', hk⟩,
    fun ⟨b, n₁, hm, c, n', hk⟩ => ⟨c, n', b, n₁, hm, hk⟩⟩

namespace Func

/-! ## Names -/

/-- The names of the inputs or outputs that get seeds. -/
def targets (f : Func α) : Mode → List String
  | .forward => f.inputNames
  | .reverse => f.outputNames

/-- The names of the inputs or outputs that get results. -/
def results (f : Func α) : Mode → List String
  | .forward => f.outputNames
  | .reverse => f.inputNames

/-- No name of an input or output starts with the word of the mode. -/
def Untagged (f : Func α) (mode : Mode) : Prop :=
  ∀ name ∈ f.inputNames ++ f.outputNames, ¬ mode.word.toList <+: name.toList

/-- An input or output has the name of a seed or result already. -/
def Taken (f : Func α) (mode : Mode) (direction : Nat) : Prop :=
  (∃ x ∈ f.targets mode, directionTag mode.word direction ++ x ∈ f.inputNames) ∨
    ∃ x ∈ f.results mode, directionTag mode.word direction ++ x ∈ f.outputNames

variable {f g : Func α} {mode mode' : Mode} {n s s' : Nat}

theorem Untagged.not_taken (h : f.Untagged mode) (d : Nat) : ¬ f.Taken mode d := by
  rintro (⟨x, -, hx⟩ | ⟨x, -, hx⟩)
  · exact h _ (List.mem_append_left _ hx) (prefix_directionTag _ _ _)
  · exact h _ (List.mem_append_right _ hx) (prefix_directionTag _ _ _)

/-- The names of `g` are those of `f` and the tagged ones of `n` directions. -/
structure Names (f g : Func α) (mode : Mode) (n : Nat) : Prop where
  inputs : g.inputNames = f.inputNames ++ tagged mode.word n (f.targets mode)
  outputs : g.outputNames = f.outputNames ++ tagged mode.word n (f.results mode)

theorem Names.subset (h : Names f g mode n) :
    f.inputNames ⊆ g.inputNames ∧ f.outputNames ⊆ g.outputNames := by
  rw [h.inputs, h.outputs]
  exact ⟨List.subset_append_left _ _, List.subset_append_left _ _⟩

/-- Names that are taken stay taken. -/
theorem Names.taken (h : Names f g mode n) {d : Nat} (ht : f.Taken mode' d) : g.Taken mode' d := by
  obtain ⟨hi, ho⟩ := h.subset
  rcases ht with ⟨x, hx, htag⟩ | ⟨x, hx, htag⟩
  · refine .inl ⟨x, ?_, hi htag⟩
    cases mode' with
    | forward => exact hi hx
    | reverse => exact ho hx
  · refine .inr ⟨x, ?_, ho htag⟩
    cases mode' with
    | forward => exact ho hx
    | reverse => exact hi hx

/-- Directions of a mode leave no name for more directions of that mode. -/
theorem Names.taken_self (h : Names f g mode n) (hn : 0 < n)
    (hne : f.inputNames ++ f.outputNames ≠ []) : g.Taken mode 0 := by
  obtain ⟨hi, ho⟩ := h.subset
  have hname : (∃ x, x ∈ f.targets mode) ∨ ∃ x, x ∈ f.results mode := by
    obtain ⟨x, hx⟩ := List.exists_mem_of_ne_nil _ hne
    cases mode with
    | forward => exact (List.mem_append.1 hx).imp (fun hx => ⟨x, hx⟩) fun hx => ⟨x, hx⟩
    | reverse => exact (List.mem_append.1 hx).symm.imp (fun hx => ⟨x, hx⟩) fun hx => ⟨x, hx⟩
  rcases hname with ⟨x, hx⟩ | ⟨x, hx⟩
  · refine .inl ⟨x, ?_, ?_⟩
    · cases mode with
      | forward => exact hi hx
      | reverse => exact ho hx
    · rw [h.inputs]
      exact List.mem_append_right _ (mem_tagged.2 ⟨0, hn, x, hx, rfl⟩)
  · refine .inr ⟨x, ?_, ?_⟩
    · cases mode with
      | forward => exact ho hx
      | reverse => exact hi hx
    · rw [h.outputs]
      exact List.mem_append_right _ (mem_tagged.2 ⟨0, hn, x, hx, rfl⟩)

/-- Directions of one mode do not use up the names of the other. -/
theorem Names.untagged (h : Names f g mode n) (hmode : mode' ≠ mode ∨ n = 0) (hu : f.Untagged mode') :
    g.Untagged mode' := by
  have htagged (names : List String) : ∀ name ∈ tagged mode.word n names,
      ¬ mode'.word.toList <+: name.toList := by
    rintro name hname hprefix
    obtain ⟨d, hd, x, -, rfl⟩ := mem_tagged.1 hname
    rcases hmode with hmode | rfl
    · exact hmode (Mode.eq_of_prefix hprefix (prefix_directionTag _ _ _))
    · exact absurd hd (Nat.not_lt_zero d)
  intro name hname
  rw [h.inputs, h.outputs] at hname
  rcases List.mem_append.1 hname with hname | hname
  · rcases List.mem_append.1 hname with hname | hname
    exacts [hu _ (List.mem_append_left _ hname), htagged _ _ hname]
  · rcases List.mem_append.1 hname with hname | hname
    exacts [hu _ (List.mem_append_right _ hname), htagged _ _ hname]

theorem Names.eq_nil (h : Names f g mode n) (hnil : f.inputNames = [] ∧ f.outputNames = []) :
    g.inputNames = [] ∧ g.outputNames = [] := by
  rw [h.inputs, h.outputs]
  cases mode <;> simp [targets, results, hnil.1, hnil.2, tagged]

theorem Names.ne_nil (h : Names f g mode n) (hne : f.inputNames ++ f.outputNames ≠ []) :
    g.inputNames ++ g.outputNames ≠ [] := by
  obtain ⟨hi, ho⟩ := h.subset
  obtain ⟨x, hx⟩ := List.exists_mem_of_ne_nil _ hne
  refine List.ne_nil_of_mem (a := x) ?_
  exact List.mem_append.2 ((List.mem_append.1 hx).imp (hi ·) (ho ·))

/-- The names of a mode are free for the directions of one more call, or taken. -/
def Left (f : Func α) (left : Mode → Nat) : Prop :=
  ∀ mode, left mode = 1 ∧ f.Untagged mode ∨ left mode = 0 ∧ f.Taken mode 0

/-- Directions of a mode use up its names, and leave those of the other mode. -/
theorem Left.step {left : Mode → Nat} (hleft : f.Left left) {call : Mode × Nat}
    (hnames : Names f g call.1 call.2) (hne : f.inputNames ++ f.outputNames ≠ []) :
    g.Left fun mode => left mode - mode.uses [call] := by
  intro mode
  beta_reduce
  rw [Mode.uses_singleton]
  split
  · rename_i hcall
    obtain ⟨rfl, hn⟩ := hcall
    refine .inr ⟨?_, hnames.taken_self hn hne⟩
    rcases hleft call.1 with h | h <;> omega
  · -- the tagged names have the word of the other mode, or there are none
    rename_i hcall
    have hother : mode ≠ call.1 ∨ call.2 = 0 := by
      by_cases hn : call.2 = 0
      · exact .inr hn
      · exact .inl fun hmode => hcall ⟨hmode.symm, Nat.pos_of_ne_zero hn⟩
    rw [Nat.sub_zero]
    exact (hleft mode).imp (.imp_right (hnames.untagged hother)) (.imp_right hnames.taken)

/-! ## One derivative -/

variable [Scalar α]

/-- The derivative of the given mode. -/
def differentiate (f : Func α) : Mode → Nat → TryBuild (Func α)
  | .forward, n => f.forward n
  | .reverse, n => f.reverse n

/-- What a derivative of the given mode adds. -/
def added (f : Func α) : Mode → Nat → Build (List (Added α))
  | .forward, n => f.forwardAdded n
  | .reverse, n => f.reverseAdded n

theorem run_differentiate (f : Func α) (mode : Mode) (n s : Nat) :
    (f.differentiate mode n).run.run s =
      (make s!"{mode.word}{n}_{f.name}" (f.inputs ++ ((f.added mode n).run s).1.flatMap (·.1))
        (f.outputs ++ ((f.added mode n).run s).1.flatMap (·.2)), ((f.added mode n).run s).2) := by
  cases mode with
  | forward => exact run_forward f n s
  | reverse => exact run_reverse f n s

theorem name_of_differentiate {mode : Mode} {n s s' : Nat} {g : Func α}
    (h : (f.differentiate mode n).run.run s = (.ok g, s')) : g.name = s!"{mode.word}{n}_{f.name}" := by
  rw [run_differentiate, Prod.mk.injEq] at h
  exact (make_eq_ok h.1).1

/-- A derivative extends the function, under tagged names. -/
theorem exists_extension_differentiate (hf : f.NumberedBelow s) (mode : Mode) (n : Nat) :
    (∃ S, Extension False (fun _ => True) f ((f.added mode n).run s).2 S
      (((f.added mode n).run s).1.flatMap (·.1)) (((f.added mode n).run s).1.flatMap (·.2))) ∧
    (((f.added mode n).run s).1.flatMap (·.1)).map (·.1) = tagged mode.word n (f.targets mode) ∧
    (((f.added mode n).run s).1.flatMap (·.2)).map (·.1) = tagged mode.word n (f.results mode) := by
  cases mode with
  | forward =>
    obtain ⟨S, hext, hadded⟩ := exists_extension_forward (F := False) (R := fun _ => True) hf
      (fun h => h.elim) n
    exact ⟨⟨S, hext⟩, hadded.seedNames, hadded.resultNames⟩
  | reverse =>
    obtain ⟨S, hext, hadded⟩ := exists_extension_reverse (F := False) (R := fun _ => True) hf
      (fun _ _ => trivial) (fun h => h.elim) (fun h => h.elim) n
    exact ⟨⟨S, hext⟩, hadded.seedNames, hadded.resultNames⟩

/-- A function whose nodes are numbered below that of the next node and have entries. -/
structure Regular (f : Func α) (n : Nat) : Prop where
  numbered : f.NumberedBelow n
  entries : ∀ e ∈ f.nodes, e.shape.HasEntries

theorem exists_differentiate_iff (h : f.Regular s) (mode : Mode) (n : Nat) :
    (∃ g s', (f.differentiate mode n).run.run s = (.ok g, s')) ↔ ∀ d < n, ¬ f.Taken mode d := by
  simp only [Taken, not_or, not_exists, not_and]
  cases mode with
  | forward => exact exists_forward_iff h.numbered n
  | reverse => exact exists_reverse_iff h.numbered h.entries n

theorem differentiate_spec (h : f.Regular s)
    (hg : (f.differentiate mode n).run.run s = (.ok g, s')) : g.Regular s' ∧ Names f g mode n := by
  cases mode with
  | forward =>
    obtain ⟨hn, he⟩ := nodes_forward h.numbered h.entries hg
    obtain ⟨hi, ho⟩ := names_forward h.numbered hg
    exact ⟨⟨hn, he⟩, ⟨hi, ho⟩⟩
  | reverse =>
    obtain ⟨hn, he⟩ := nodes_reverse h.numbered h.entries hg
    obtain ⟨hi, ho⟩ := names_reverse h.numbered hg
    exact ⟨⟨hn, he⟩, ⟨hi, ho⟩⟩

/-! ## Sequences of derivatives -/

/-- Derivatives one after the other, each of the function that the one before it gives. -/
def differentiateAll (f : Func α) (calls : List (Mode × Nat)) : TryBuild (Func α) :=
  calls.foldlM (fun f call => f.differentiate call.1 call.2) f

/-- After the first call the other calls are on its derivative. -/
theorem exists_differentiateAll_cons {call : Mode × Nat} {calls : List (Mode × Nat)} :
    (∃ g s', (f.differentiateAll (call :: calls)).run.run s = (.ok g, s')) ↔
      ∃ g s₁, (f.differentiate call.1 call.2).run.run s = (.ok g, s₁) ∧
        ∃ h s', (g.differentiateAll calls).run.run s₁ = (.ok h, s') := by
  rw [differentiateAll, List.foldlM_cons]
  exact TryBuild.exists_run_bind_ok

theorem Left.exists_call_iff {left : Mode → Nat} (hleft : f.Left left) (h : f.Regular s)
    (call : Mode × Nat) :
    (∃ g s', (f.differentiate call.1 call.2).run.run s = (.ok g, s')) ↔
      ∀ mode, mode.uses [call] ≤ left mode := by
  rw [Func.exists_differentiate_iff h]
  constructor
  · intro hfree mode
    rw [Mode.uses_singleton]
    split
    · rename_i hcall
      obtain ⟨rfl, hn⟩ := hcall
      exact ((hleft call.1).resolve_right fun ht => hfree 0 hn ht.2).1.ge
    · exact Nat.zero_le _
  · intro huses d hd
    have hpos : 0 < left call.1 := by
      have := huses call.1
      rwa [Mode.uses_singleton, if_pos ⟨rfl, Nat.zero_lt_of_lt hd⟩] at this
    exact ((hleft call.1).resolve_right fun ht => hpos.ne' ht.1).2.not_taken d

/-- Calls are possible as long as they use what is left. -/
theorem Left.exists_calls_iff {left : Mode → Nat} (hleft : f.Left left) (h : f.Regular s)
    (hne : f.inputNames ++ f.outputNames ≠ []) (calls : List (Mode × Nat)) :
    (∃ g s', (f.differentiateAll calls).run.run s = (.ok g, s')) ↔
      ∀ mode, mode.uses calls ≤ left mode := by
  induction calls generalizing f s left with
  | nil => exact ⟨fun _ mode => Nat.zero_le _, fun _ => ⟨f, s, rfl⟩⟩
  | cons call calls ih =>
    -- what the induction hypothesis says of the derivative
    have hrest {g : Func α} {s₁ : Nat}
        (hg : (f.differentiate call.1 call.2).run.run s = (.ok g, s₁)) :
        (∃ h s', (g.differentiateAll calls).run.run s₁ = (.ok h, s')) ↔
          ∀ mode, mode.uses calls ≤ left mode - mode.uses [call] := by
      obtain ⟨hregular, hnames⟩ := differentiate_spec h hg
      exact ih (hleft.step hnames hne) hregular (hnames.ne_nil hne)
    rw [exists_differentiateAll_cons]
    constructor
    · rintro ⟨g, s₁, hg, hcalls⟩ mode
      have hfirst := (hleft.exists_call_iff h call).1 ⟨g, s₁, hg⟩ mode
      have hothers := (hrest hg).1 hcalls mode
      rw [Mode.uses_cons]
      omega
    · intro huses
      have hsum (mode : Mode) : mode.uses [call] + mode.uses calls ≤ left mode :=
        mode.uses_cons call calls ▸ huses mode
      obtain ⟨g, s₁, hg⟩ := (hleft.exists_call_iff h call).2 fun mode => by
        have := hsum mode
        omega
      exact ⟨g, s₁, hg, (hrest hg).2 fun mode => by have := hsum mode; omega⟩

/-- Without inputs and outputs there are no names to clash. -/
theorem exists_differentiateAll_of_nil (h : f.Regular s)
    (hnil : f.inputNames = [] ∧ f.outputNames = []) (calls : List (Mode × Nat)) :
    ∃ g s', (f.differentiateAll calls).run.run s = (.ok g, s') := by
  induction calls generalizing f s with
  | nil => exact ⟨f, s, rfl⟩
  | cons call calls ih =>
    obtain ⟨g, s₁, hg⟩ := (exists_differentiate_iff h call.1 call.2).2 fun d _ => by
      rintro (⟨x, -, hx⟩ | ⟨x, -, hx⟩)
      · rw [hnil.1] at hx; cases hx
      · rw [hnil.2] at hx; cases hx
    obtain ⟨hregular, hnames⟩ := differentiate_spec h hg
    exact exists_differentiateAll_cons.2 ⟨g, s₁, hg, ih hregular (hnames.eq_nil hnil)⟩

/-- For a function whose names have no tags and whose nodes have entries, a sequence of derivatives
exists exactly when each mode adds directions once at most, or there are no names at all. -/
theorem exists_differentiateAll_iff (hf : f.NumberedBelow s) (hentries : ∀ e ∈ f.nodes, e.shape.HasEntries)
    (hnames : ∀ mode, f.Untagged mode) (calls : List (Mode × Nat)) :
    (∃ g s', (f.differentiateAll calls).run.run s = (.ok g, s')) ↔
      (f.inputs = [] ∧ f.outputs = []) ∨ ∀ mode : Mode, mode.uses calls ≤ 1 := by
  have h : f.Regular s := ⟨hf, hentries⟩
  by_cases hnil : f.inputs = [] ∧ f.outputs = []
  · refine iff_of_true (exists_differentiateAll_of_nil h ⟨?_, ?_⟩ calls) (.inl hnil)
    · rw [inputNames, hnil.1]; rfl
    · rw [outputNames, hnil.2]; rfl
  · have hleft : f.Left (fun _ : Mode => 1) := fun mode => .inl ⟨rfl, hnames mode⟩
    rw [hleft.exists_calls_iff h fun happend => hnil ?_, or_iff_right hnil]
    obtain ⟨hi, ho⟩ := List.append_eq_nil_iff.1 happend
    exact ⟨List.map_eq_nil_iff.1 hi, List.map_eq_nil_iff.1 ho⟩

theorem untagged_square {f : Func ℚ} (hi : f.inputs = [("a", square[0])])
    (ho : f.outputs = [("y", square[1])]) (mode : Mode) : f.Untagged mode := by
  rw [Untagged, inputNames, outputNames, hi, ho]
  cases mode <;> decide

/-- The square has a second derivative in two modes. -/
theorem exists_differentiateAll_square : ∃ f : Func ℚ, f.inputs = [("a", square[0])] ∧
    f.outputs = [("y", square[1])] ∧ f.NumberedBelow 2 ∧ (∀ e ∈ f.nodes, e.shape.HasEntries) ∧
    (∀ mode, f.Untagged mode) ∧
    ∃ g s', (f.differentiateAll [(.forward, 1), (.reverse, 2), (.forward, 0)]).run.run 2 = (.ok g, s') := by
  obtain ⟨f, hi, ho, hf, hshape, -⟩ := exists_square
  have hentries : ∀ e ∈ f.nodes, e.shape.HasEntries := fun e he => hshape e he ▸ Nat.one_ne_zero
  have hnames : ∀ mode, f.Untagged mode := untagged_square hi ho
  refine ⟨f, hi, ho, hf, hentries, hnames, (exists_differentiateAll_iff hf hentries hnames _).2 (.inr ?_)⟩
  intro mode
  cases mode <;> decide

/-- The square has no second forward derivative. -/
theorem not_exists_forward_forward : ∃ f : Func ℚ, f.inputs = [("a", square[0])] ∧
    f.outputs = [("y", square[1])] ∧ f.NumberedBelow 2 ∧ (∀ e ∈ f.nodes, e.shape.HasEntries) ∧
    (∀ mode, f.Untagged mode) ∧
    ¬ ∃ g s', (f.differentiateAll [(.forward, 1), (.forward, 1)]).run.run 2 = (.ok g, s') := by
  obtain ⟨f, hi, ho, hf, hshape, -⟩ := exists_square
  have hentries : ∀ e ∈ f.nodes, e.shape.HasEntries := fun e he => hshape e he ▸ Nat.one_ne_zero
  have hnames : ∀ mode, f.Untagged mode := untagged_square hi ho
  refine ⟨f, hi, ho, hf, hentries, hnames, fun hcalls => ?_⟩
  have hleft : f.Left fun _ => 1 := fun mode => .inl ⟨rfl, hnames mode⟩
  have huses := (hleft.exists_calls_iff ⟨hf, hentries⟩ (by simp [inputNames, hi]) _).1 hcalls
  exact absurd (huses .forward) (by decide)

end Func

end Lyapunov
