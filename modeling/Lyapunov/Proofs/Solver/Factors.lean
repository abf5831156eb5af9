/-
The factors of the low-rank equation as data of a solver. The solution takes data by their places, and only
counts them and compares their shapes. So the factors that the equation declares get to where they belong,
others are refused by their number; but one factor in place of the other, where only that one is declared,
is taken for it.
-/
import Lyapunov.Proofs.Solver.Totality

namespace Lyapunov

variable {α : Type}

/-- The equation has exactly the factors that are given. -/
def LowRankDle.Declares (e : LowRankDle) (c h : Option (Argument α)) : Prop :=
  c.isSome = e.c.isSome ∧ h.isSome = e.h.isSome

namespace Solver

/-- Data of the low-rank equation under the names of the inputs. -/
def namedData (a v : Argument α) (c h : Option (Argument α)) : List (String × Argument α) :=
  [("a", a), ("v", v)] ++ (c.map ("c", ·)).toList ++ (h.map ("h", ·)).toList

theorem map_snd_namedData (a v : Argument α) (c h : Option (Argument α)) :
    (namedData a v c h).map (·.2) = [a, v] ++ c.toList ++ h.toList := by
  cases c <;> cases h <;> rfl

theorem map_fst_namedData {e : LowRankDle} {c h : Option (Argument α)} (hdeclares : e.Declares c h)
    (a v : Argument α) : (namedData a v c h).map (·.1) =
      ["a", "v"] ++ (e.c.map fun _ => "c").toList ++ (e.h.map fun _ => "h").toList := by
  have hsame (name : String) {x : Option (Argument α)} {y : Option Shape} (hxy : x.isSome = y.isSome) :
      (x.map (name, ·)).toList.map (·.1) = (y.map fun _ => name).toList := by
    cases x <;> cases y <;> first | rfl | cases hxy
  rw [namedData, List.map_append, List.map_append, hsame "c" hdeclares.1, hsame "h" hdeclares.2]
  rfl

variable [Scalar α]

/-- What becomes of data with the factors `c` and `h`. -/
structure TakesFactors (solver : Solver LowRankDle LowRankInputs α) (e : LowRankDle) (a v : Argument α)
    (c h : Option (Argument α)) : Prop where
  /-- The factors of the equation are used under their names. -/
  declared : e.Declares c h →
    solver.call (namedData a v c h) = (fun y => [("y", y)]) <$> solver.solveLowRank a v c h
  /-- An answer needs data of the shapes of the inputs, place by place. -/
  shapes : ∀ y, solver.solveLowRank a v c h = .ok y →
    ([a, v] ++ c.toList ++ h.toList).map (·.shape) = [e.a, e.v] ++ e.c.toList ++ e.h.toList
  /-- Other factors are refused, -/
  refused : ¬ e.Declares c h → ¬ e.Declares h c → solver.solveLowRank a v c h =
    .error (.argumentCount solver.function.name ([e.a, e.v] ++ e.c.toList ++ e.h.toList).length
      (namedData a v c h).length)
  /-- but one that is not declared is used under the name of the one that is. -/
  exchanged : ¬ e.Declares c h → e.Declares h c →
    solver.call (namedData a v h c) = (fun y => [("y", y)]) <$> solver.solveLowRank a v c h

namespace Sound

variable {e : LowRankDle} {solver : Solver LowRankDle LowRankInputs α} {n s s' : Nat}
  (h : solver.Sound e n s s') (a v : Argument α) {c H : Option (Argument α)}

include h

/-- The factors of the equation are used under their names. -/
theorem call_namedData (hdeclares : e.Declares c H) :
    solver.call (namedData a v c H) = (fun y => [("y", y)]) <$> solver.solveLowRank a v c H := by
  have hnames := (map_fst_namedData hdeclares a v).trans (inputNames_lowRank h).symm
  rw [call, Func.call_eq hnames, map_snd_namedData, h.outputNames, solveLowRank, eval]
  -- the values are those of one output
  cases hvalues : solver.function.eval ([a, v] ++ c.toList ++ H.toList) with
  | error err => rfl
  | ok values =>
    have hlength := Func.length_eval h.numbered.isDag hvalues
    rw [h.outputNames] at hlength
    obtain ⟨y, rfl⟩ := List.length_eq_one_iff.1 hlength
    rfl

omit h [Scalar α] in
/-- As many factors as the equation has are those factors, or one for the other. -/
theorem declares_or (hlength : c.toList.length + H.toList.length = e.c.toList.length + e.h.toList.length) :
    e.Declares c H ∨ e.Declares H c := by
  unfold LowRankDle.Declares
  generalize e.c = c', e.h = h' at *
  cases c <;> cases c' <;> cases H <;> cases h' <;> simp at hlength ⊢

/-- Too many or too few data are refused. -/
theorem solveLowRank_eq_error (hdeclares : ¬ e.Declares c H) (hexchanged : ¬ e.Declares H c) :
    solver.solveLowRank a v c H =
      .error (.argumentCount solver.function.name ([e.a, e.v] ++ e.c.toList ++ e.h.toList).length
        (namedData a v c H).length) := by
  have hinputs : solver.function.inputs.length = ([e.a, e.v] ++ e.c.toList ++ e.h.toList).length := by
    rw [← inputShapes_lowRank h, Func.inputShapes, List.length_map]
  have hdata : ([a, v] ++ c.toList ++ H.toList).length = (namedData a v c H).length := by
    rw [← map_snd_namedData, List.length_map]
  have hlength : ([a, v] ++ c.toList ++ H.toList).length ≠ solver.function.inputs.length := by
    intro heq
    rw [hinputs] at heq
    simp only [List.length_append, List.length_cons, List.length_nil] at heq
    exact (declares_or (by omega)).elim hdeclares hexchanged
  rw [solveLowRank, eval, Func.eval, Func.checkArguments_of_length_ne hlength, hinputs, hdata]
  rfl

omit h in
/-- Of two factors that are not both given, the places do not tell which one it is. -/
theorem solveLowRank_comm (hdeclares : ¬ e.Declares c H) (hexchanged : e.Declares H c) :
    solver.solveLowRank a v c H = solver.solveLowRank a v H c := by
  cases c with
  | none => cases H <;> rfl
  | some x =>
    cases H with
    | none => rfl
    | some y => exact absurd ⟨hexchanged.1, hexchanged.2⟩ hdeclares

theorem shapes_of_solveLowRank {y : Dense α} (hy : solver.solveLowRank a v c H = .ok y) :
    ([a, v] ++ c.toList ++ H.toList).map (·.shape) = [e.a, e.v] ++ e.c.toList ++ e.h.toList := by
  obtain ⟨values, hvalues, -⟩ := Except.bind_eq_ok.1 hy
  exact (Func.shapes_of_eval hvalues).trans (inputShapes_lowRank h)

theorem takesFactors (c H : Option (Argument α)) : solver.TakesFactors e a v c H where
  declared := h.call_namedData a v
  shapes _ := h.shapes_of_solveLowRank a v
  refused := h.solveLowRank_eq_error a v
  exchanged hdeclares hexchanged :=
    (h.call_namedData a v hexchanged).trans
      (congrArg _ (solveLowRank_comm a v hdeclares hexchanged).symm)

end Sound

/-- Every solver of the low-rank equation uses the factors that the equation declares under their names, for
data of any shapes, and refuses others unless there is one of them in the place of the other. -/
theorem takesFactors_of_make {name plugin : String} {o : Options} {s s' : Nat} {e : LowRankDle}
    {solver : Solver LowRankDle LowRankInputs α}
    (h : (make name plugin e o).run.run s = (.ok solver, s')) (a v : Argument α)
    (c H : Option (Argument α)) : solver.TakesFactors e a v c H :=
  (LowRankDle.sound h).takesFactors a v c H

/-- The low-rank equation of numbers, with the left factor only. -/
def oneFactor : LowRankDle := { a := .square 1, v := .square 1, c := some (.square 1) }

theorem exists_make_oneFactor : ∃ (solver : Solver LowRankDle LowRankInputs ℚ) (s' : Nat),
    (make "f" "fixed_smith" oneFactor (Smith.termOptions 1)).run.run 0 = (.ok solver, s') := by
  have hvalid : oneFactor.Valid := LowRankDle.validate_eq_ok.1 rfl
  exact Smith.exists_make_lowRank hvalid (by decide) "f" 0

theorem takesFactors_oneFactor : ∃ (solver : Solver LowRankDle LowRankInputs ℚ) (s' : Nat),
    (make "f" "fixed_smith" oneFactor (Smith.termOptions 1)).run.run 0 = (.ok solver, s') ∧
      solver.call [("a", .scalar 2), ("v", .scalar 3), ("c", .scalar 5)] =
        (fun y => [("y", y)]) <$> solver.solveLowRank (.scalar 2) (.scalar 3) (some (.scalar 5)) none ∧
      solver.solveLowRank (.scalar 2) (.scalar 3) none none =
        .error (.argumentCount solver.function.name 3 2) ∧
      solver.call [("a", .scalar 2), ("v", .scalar 3), ("c", .scalar 5)] =
        (fun y => [("y", y)]) <$> solver.solveLowRank (.scalar 2) (.scalar 3) none (some (.scalar 5)) := by
  obtain ⟨solver, s', hmake⟩ := exists_make_oneFactor
  have htakes := takesFactors_of_make hmake (.scalar 2) (.scalar 3)
  exact ⟨solver, s', hmake, (htakes (some (.scalar 5)) none).declared ⟨rfl, rfl⟩,
    (htakes none none).refused (fun h => nomatch h.1) (fun h => nomatch h.1),
    (htakes none (some (.scalar 5))).exchanged (fun h => nomatch h.1) ⟨rfl, rfl⟩⟩

/-- The right factor is taken for the left one where only that is declared. -/
theorem exists_solveLowRank_exchanged : ∃ (solver : Solver LowRankDle LowRankInputs ℚ) (s' : Nat),
    (make "f" "fixed_smith" oneFactor (Smith.termOptions 1)).run.run 0 = (.ok solver, s') ∧
      oneFactor.h = none ∧
      ∃ y, solver.solveLowRank (.scalar 2) (.scalar 3) none (some (.scalar 5)) = .ok y := by
  obtain ⟨solver, s', hmake⟩ := exists_make_oneFactor
  have hsound := LowRankDle.sound hmake
  have hmethod := methodName_eq (plugin_name_eq hmake) (by decide)
  have hshapes : ([.scalar 2, .scalar 3, .scalar 5] : List (Argument ℚ)).map (·.shape) =
      solver.function.inputShapes := (inputShapes_lowRank hsound).symm ▸ rfl
  obtain ⟨y, hy, -⟩ := (hsound.evaluates hshapes).smith hmethod
  exact ⟨solver, s', hmake, rfl, y, hy⟩

end Solver

end Lyapunov
