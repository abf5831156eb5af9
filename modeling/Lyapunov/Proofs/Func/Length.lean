/-
The length of the tape of a function. A tape has one instruction for each node that the outputs can reach, so
all walks over a graph agree on how large it is; and the symbols that a walk finds are those that a function
of the expression needs as inputs.
-/
import Lyapunov.Proofs.Func.Refusal
import Lyapunov.Proofs.Func.Soundness
import Lyapunov.Proofs.Graph.Collect

namespace Lyapunov

variable {α : Type}

/-! ## Tapes -/

/-- The tape of a function has an instruction for each node that the outputs can reach. -/
theorem Func.length_tape {f : Func α} (h : IsDag (f.outputs.map (·.2))) :
    f.tape.length = (Expr.topologicalOrder (f.outputs.map (·.2))).length :=
  (Tape.length_compile h f.tape_eq).1

theorem Func.length_tape_of_outputs {f : Func α} {e : Expr α} (hdag : IsDag [e])
    (houtputs : f.outputs.map (·.2) = [e]) : f.tape.length = e.nodeCount := by
  rw [length_tape (houtputs ▸ hdag), houtputs, Expr.nodeCount_eq_length hdag]

/-! ## Free symbols -/

section

variable {inputs : List (String × Expr α)} {e : Expr α} (hdag : IsDag (e :: inputs.map (·.2)))

include hdag

theorem isDag_of_cons : IsDag [e] :=
  hdag.isDag fun _ hr => .root (List.mem_singleton.1 hr ▸ List.mem_cons_self)

namespace Func

variable (hinputs : InputsAccepted inputs) (hchecked : e.Checked)

include hinputs hchecked

/-- An expression with operands that fit makes a function, unless one of its symbols is no input; it is then
refused for that symbol. -/
theorem exists_make_or_freeSymbol (name output : String) :
    ((∃ f, make name inputs [(output, e)] = .ok f) ∧ ∀ x ∈ e.symbols, x ∈ inputs.map (·.2)) ∨
      ∃ symbol, make name inputs [(output, e)] = .error (.freeSymbol symbol) ∧
        ∃ x ∈ e.symbols, x ∉ inputs.map (·.2) := by
  have hmem : ∀ p ∈ inputs, Expr.Reachable (e :: inputs.map (·.2)) p.2 := fun p hp =>
    .root (List.mem_cons_of_mem _ (List.mem_map_of_mem hp))
  have hroots : ∀ p ∈ [(output, e)], Expr.Reachable (e :: inputs.map (·.2)) p.2 := fun p hp =>
    .root (List.mem_singleton.1 hp ▸ List.mem_cons_self)
  have hsymbol {x : Expr α} : x ∈ e.symbols ↔ Expr.Below x e ∧ x.isSymbol = true :=
    Expr.mem_symbols_iff (isDag_of_cons hdag)
  cases hmake : make name inputs [(output, e)] with
  | ok f =>
    refine .inl ⟨⟨f, rfl⟩, fun x hx => ?_⟩
    have hwell := (exists_make_iff_wellFormed hdag hmem hroots name).1 ⟨f, hmake⟩
    exact (hwell.nodesAccepted x ⟨e, List.mem_singleton_self e, (hsymbol.1 hx).1⟩).input (hsymbol.1 hx).2
  | error err =>
    have hnamed : Named inputs [(output, e)] :=
      ⟨hinputs.symbols, hinputs.names, (nodup_map_id_iff hdag hmem).2 hinputs.nodes, List.nodup_singleton _⟩
    rw [make_eq_error, compile_of_named hnamed, tapeCompile_eq_error_iff hdag hmem hroots] at hmake
    obtain ⟨before, x, after, hsplit, -, hfault⟩ := hmake
    have hx : Expr.Below x e := by
      have hx : x ∈ Expr.topologicalOrder [e] := by
        show x ∈ Expr.topologicalOrder ([(output, e)].map (·.2))
        rw [hsplit]
        simp
      obtain ⟨r, hr, hx⟩ := (Expr.mem_topologicalOrder (isDag_of_cons hdag)).1 hx
      exact List.mem_singleton.1 hr ▸ hx
    cases hfault with
    | operands hcheck =>
      rw [hchecked x hx] at hcheck
      cases hcheck
    | @free symbol _ hname hfree =>
      have hs : x.isSymbol = true := by rw [Expr.isSymbol, hname]; rfl
      exact .inr ⟨symbol, rfl, x, hsymbol.2 ⟨hx, hs⟩, hfree⟩

theorem exists_make_iff_symbols (name output : String) :
    (∃ f, make name inputs [(output, e)] = .ok f) ↔ ∀ x ∈ e.symbols, x ∈ inputs.map (·.2) := by
  rcases exists_make_or_freeSymbol hdag hinputs hchecked name output with
    ⟨hmake, hall⟩ | ⟨symbol, hmake, x, hx, hfree⟩
  · exact ⟨fun _ => hall, fun _ => hmake⟩
  · constructor
    · rintro ⟨f, hf⟩
      rw [hmake] at hf
      cases hf
    · exact fun hall => absurd (hall x hx) hfree

theorem make_eq_freeSymbol_iff (name output : String) :
    (∃ symbol, make name inputs [(output, e)] = .error (.freeSymbol symbol)) ↔
      ∃ x ∈ e.symbols, x ∉ inputs.map (·.2) := by
  rcases exists_make_or_freeSymbol hdag hinputs hchecked name output with
    ⟨⟨f, hmake⟩, hall⟩ | ⟨symbol, hmake, hfree⟩
  · constructor
    · rintro ⟨symbol, h⟩
      rw [hmake] at h
      cases h
    · rintro ⟨x, hx, hfree⟩
      exact absurd (hall x hx) hfree
  · exact ⟨fun _ => hfree, fun _ => ⟨symbol, hmake⟩⟩

end Func

end

/-- The walks over a graph agree. An expression has as many nodes as its topological order and as the tape of
a function that computes it alone; its symbols are those of the topological order, in the order of their
creation; and they are what a function of the expression needs as inputs, provided that its operands fit. -/
theorem Expr.traversals_agree {e : Expr α} (hdag : IsDag [e]) :
    e.nodeCount = (topologicalOrder [e]).length ∧
    (∀ f : Func α, f.outputs.map (·.2) = [e] → f.tape.length = e.nodeCount) ∧
    e.symbols.Perm ((topologicalOrder [e]).filter isSymbol) ∧
    e.symbols.Pairwise (fun x y => x.id < y.id) ∧
    ∀ inputs : List (String × Expr α), IsDag (e :: inputs.map (·.2)) → Func.InputsAccepted inputs →
      e.Checked → ∀ name output : String,
        ((∃ symbol, Func.make name inputs [(output, e)] = .error (.freeSymbol symbol)) ↔
          ∃ x ∈ e.symbols, x ∉ inputs.map (·.2)) ∧
        ((∃ f, Func.make name inputs [(output, e)] = .ok f) ↔
          ∀ x ∈ e.symbols, x ∈ inputs.map (·.2)) := by
  refine ⟨nodeCount_eq_length hdag, fun f => Func.length_tape_of_outputs hdag,
    symbols_perm_filter.trans ((reachable_perm hdag).filter _), pairwise_symbols hdag,
    fun inputs hall hinputs hchecked name output => ⟨?_, ?_⟩⟩
  · exact Func.make_eq_freeSymbol_iff hall hinputs hchecked name output
  · exact Func.exists_make_iff_symbols hall hinputs hchecked name output

/-- A sum with a condition has two symbols. Without the second one as an input there is no function. -/
theorem traversals_agree_doubleIf :
    IsDag [Func.doubleIf[3]] ∧ Func.doubleIf[3].nodeCount = 4 ∧
      Func.doubleIf[3].symbols = [Func.doubleIf[0], Func.doubleIf[1]] ∧
      (∀ f : Func ℚ, f.outputs.map (·.2) = [Func.doubleIf[3]] → f.tape.length = 4) ∧
      ∃ symbol, Func.make "f" [("a", Func.doubleIf[0])] [("y", Func.doubleIf[3])] =
        .error (.freeSymbol symbol) := by
  have hS : IsGraph {x | x ∈ Func.doubleIf} :=
    isGraph_list (by simp [Func.doubleIf, Expr.operands]) (by simp [Func.doubleIf, Expr.id])
  have hdag : IsDag [Func.doubleIf[3]] := hS.isDag (by simp [Func.doubleIf])
  obtain ⟨hcount, htape, hperm, hsorted, hfree⟩ := Expr.traversals_agree hdag
  have horder : Expr.topologicalOrder [Func.doubleIf[3]] =
      [Func.doubleIf[0], Func.doubleIf[2], Func.doubleIf[1], Func.doubleIf[3]] := by
    simp [Expr.topologicalOrder_eq, Expr.postorder, Func.doubleIf, Walk.visit, Walk.start, Walk.enter,
      Walk.leave, Expr.id]
  have hsymbols : Func.doubleIf[3].symbols = [Func.doubleIf[0], Func.doubleIf[1]] := by
    rw [horder] at hperm
    refine List.Perm.eq_of_pairwise (fun x y _ _ hxy hyx => absurd hxy (by omega)) hsorted ?_ hperm
    simp [Func.doubleIf, Expr.id]
  rw [horder] at hcount
  refine ⟨hdag, hcount, hsymbols, fun f hf => (htape f hf).trans hcount, ?_⟩
  refine (hfree [("a", Func.doubleIf[0])] (hS.isDag (by simp [Func.doubleIf])) ⟨by decide, by decide, by simp⟩
    (fun x hx => ?_) "f" "y").1.2 ⟨Func.doubleIf[1], by rw [hsymbols]; simp, by simp [Func.doubleIf]⟩
  have hx : x ∈ Func.doubleIf := hS.below (by simp [Func.doubleIf]) hx
  simp only [Func.doubleIf, List.mem_cons, List.not_mem_nil, or_false] at hx
  rcases hx with rfl | rfl | rfl | rfl <;> rfl

end Lyapunov
