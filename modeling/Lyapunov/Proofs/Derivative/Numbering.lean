/-
Derivatives do not depend on numbers. Functions of one form have derivatives of one form, or derivatives that
fail with the same error, whatever the numbers are from which on the new nodes of either are numbered.
-/
import Lyapunov.Proofs.Derivative.Nesting
import Lyapunov.Proofs.Derivative.Renaming

namespace Lyapunov

variable {α β : Type} {ρ : Renaming} {φ : α → β}

/-! ## Outcomes -/

namespace TryBuild

variable {γ δ : Type}

/-- Run from the given numbers, the computations fail with the same error, or neither of them fails and their
results correspond. -/
def SameOutcome (m : TryBuild γ) (t : Nat) (m' : TryBuild δ) (t' : Nat) (Q : γ → Nat → δ → Nat → Prop) : Prop :=
  (∃ err r r', m.run.run t = (.error err, r) ∧ m'.run.run t' = (.error err, r')) ∨
    ∃ c d r r', m.run.run t = (.ok c, r) ∧ m'.run.run t' = (.ok d, r') ∧ Q c r d r'

theorem SameOutcome.imp {m : TryBuild γ} {m' : TryBuild δ} {t t' : Nat} {Q R : γ → Nat → δ → Nat → Prop}
    (h : SameOutcome m t m' t' Q) (himp : ∀ c r d r', m.run.run t = (.ok c, r) → m'.run.run t' = (.ok d, r') →
      Q c r d r' → R c r d r') : SameOutcome m t m' t' R :=
  h.imp_right fun ⟨c, d, r, r', hc, hd, hq⟩ => ⟨c, d, r, r', hc, hd, himp c r d r' hc hd hq⟩

end TryBuild

/-! ## New numbers -/

/-- Numbers below `s` and `s'` stand for each other as before; from `t` and `t'` on they do so in their
order. -/
def Renaming.extend (ρ : Renaming) {s s' t t' : Nat} (ht : s ≤ t) (ht' : s' ≤ t') : Renaming where
  number i j := (ρ.number i j ∧ i < s ∧ j < s') ∨ ∃ k, i = t + k ∧ j = t' + k
  name := ρ.name
  oneToOne {i j k l} hij hkl := by
    rcases hij with ⟨hij, hi, hj⟩ | ⟨m, rfl, rfl⟩
    · rcases hkl with ⟨hkl, -, -⟩ | ⟨m, rfl, rfl⟩
      · exact ρ.oneToOne hij hkl
      · constructor <;> intro h <;> omega
    · rcases hkl with ⟨-, hk, hl⟩ | ⟨m', rfl, rfl⟩
      · constructor <;> intro h <;> omega
      · rw [Nat.add_left_cancel_iff, Nat.add_left_cancel_iff]
  tagged := ρ.tagged

namespace Func

/-! ## Names -/

theorem NumberedBelow.closed_added [Scalar α] {f : Func α} {t : Nat} (hf : f.NumberedBelow t) {mode : Mode}
    (hnames : f.Untagged mode) (n : Nat) :
    Closed (f.inputs ++ ((f.added mode n).run t).1.flatMap (·.1))
      (f.outputs ++ ((f.added mode n).run t).1.flatMap (·.2)) := by
  obtain ⟨⟨S, hext⟩, hseeds, hresults⟩ := exists_extension_differentiate hf mode n
  have htargets : (f.targets mode).Nodup := by
    cases mode
    exacts [f.named.inputNames, f.named.outputNames]
  have houtcomes : (f.results mode).Nodup := by
    cases mode
    exacts [f.named.outputNames, f.named.inputNames]
  refine ⟨⟨hext.symbols, ?_, hext.nodup_inputIds, ?_⟩, fun e he hs => ?_⟩
  · rw [List.map_append, hseeds]
    exact (nodup_append_tagged f.named.inputNames htargets).2 fun d _ x hx hmem =>
      hnames.not_taken d (.inl ⟨x, hx, hmem⟩)
  · rw [List.map_append, hresults]
    exact (nodup_append_tagged f.named.outputNames houtcomes).2 fun d _ x hx hmem =>
      hnames.not_taken d (.inr ⟨x, hx, hmem⟩)
  · exact hext.exists_input
      ((Expr.mem_topologicalOrder (hext.store.graph.isDag hext.output_mem)).1 he) hs

variable {f : Func α} {f' : Func β} {s s' t t' : Nat}

/-! ## Derivatives -/

theorem Alike.extend (h : Alike ρ φ f f') (hf : f.NumberedBelow s) (hf' : f'.NumberedBelow s') (ht : s ≤ t)
    (ht' : s' ≤ t') : Alike (ρ.extend ht ht') φ f f' := by
  have hnode {p : String × Expr α} {q : String × Expr β} (hp : p.2 ∈ f.nodes) (hq : q.2 ∈ f'.nodes)
      (hpq : AlikeNamed ρ φ p q) : AlikeNamed (ρ.extend ht ht') φ p q := by
    refine ⟨hpq.name, hpq.node.imp (fun x x' hx hx' hnumber => .inl ⟨hnumber, ?_, ?_⟩) id⟩
    · exact hf.below x (hf.graph.below hp hx)
    · exact hf'.below x' (hf'.graph.below hq hx')
  exact ⟨Except.forall₂_imp_of_mem h.inputs fun p hp q hq =>
      hnode (f.input_mem_nodes hp) (f'.input_mem_nodes hq),
    Except.forall₂_imp_of_mem h.outputs fun p hp q hq =>
      hnode (f.output_mem_nodes hp) (f'.output_mem_nodes hq)⟩

variable [Scalar α] [Scalar β]

theorem Alike.parallel_added (h : Alike ρ φ f f') (h0 : φ 0 = 0) (mode : Mode) (n : Nat) :
    Build.Parallel ρ (f.added mode n) (f'.added mode n) (List.Forall₂ (AlikeAdded ρ φ)) := by
  cases mode with
  | forward => exact h.parallel_forwardAdded h0 n
  | reverse => exact h.parallel_reverseAdded h0 n

/-- Derivatives of functions of one form fail with the same error or are of one form. -/
theorem Alike.differentiate (h : Alike ρ φ f f') (h0 : φ 0 = 0) (hf : f.NumberedBelow s)
    (hf' : f'.NumberedBelow s') {mode : Mode} (hnames : f.Untagged mode) (hnames' : f'.Untagged mode) (n : Nat)
    (ht : s ≤ t) (ht' : s' ≤ t') :
    TryBuild.SameOutcome (f.differentiate mode n) t (f'.differentiate mode n) t' fun g r g' r' =>
      g.NumberedBelow r ∧ g'.NumberedBelow r' ∧ Alike (ρ.extend ht ht') φ g g' := by
  have hextend := h.extend hf hf' ht ht'
  obtain ⟨hadded, -⟩ := hextend.parallel_added h0 mode n t t' fun k => .inr ⟨k, rfl, rfl⟩
  have hinputs := List.rel_append hextend.inputs (List.rel_flatMap hadded fun _ _ hr => hr.seeds)
  have houtputs := List.rel_append hextend.outputs (List.rel_flatMap hadded fun _ _ hr => hr.results)
  unfold TryBuild.SameOutcome
  rw [run_differentiate, run_differentiate]
  rcases ((hf.mono ht).closed_added hnames n).make_alike ((hf'.mono ht').closed_added hnames' n) hinputs
    houtputs with ⟨err, herr, herr'⟩ | ⟨g, g', hg, hg', halike⟩
  · exact .inl ⟨err, _, _, congrArg (·, _) herr, congrArg (·, _) herr'⟩
  · obtain ⟨⟨S, hext⟩, -⟩ := exists_extension_differentiate (hf.mono ht) mode n
    obtain ⟨⟨S', hext'⟩, -⟩ := exists_extension_differentiate (hf'.mono ht') mode n
    exact .inr ⟨g, g', _, _, congrArg (·, _) hg, congrArg (·, _) hg', hext.numberedBelow hg,
      hext'.numberedBelow hg', halike⟩

end Func

end Lyapunov
