/-
The nodes that a solver is made of. Making a solver declares new symbols for the data and builds the
solution in new nodes, so that the function of a solver shares no input and no output with anything
that was there before.
-/
import Lyapunov.Proofs.Derivative.Creation
import Lyapunov.Proofs.Method.Creation
import Lyapunov.Solver

namespace Lyapunov

open Build

variable {α : Type} {S₀ S S' : Set (Expr α)}

/-- The named inputs are the expressions for the data, and all of them are new. -/
def NewDeclared {Inputs : Type} (operands : Inputs → List (Expr α)) (S₀ S : Set (Expr α))
    (declared : Inputs × List (String × Expr α)) : Prop :=
  declared.2.map (·.2) = operands declared.1 ∧ ∀ e ∈ operands declared.1, e ∈ S \ S₀

theorem Dle.creates_declare (h₀ : S₀ ⊆ S) (e : Dle) :
    Creates S (e.declare (α := α)) (NewDeclared DleInputs.operands S₀) := by
  refine creates_bind (createsNode_symbol h₀ _ _) fun S₁ a h₁ ha => ?_
  refine (createsNode_symbol (h₀.trans h₁) _ _).map fun S₂ v h₂ hv => ?_
  exact ⟨rfl, DleInputs.forall_operands.2 ⟨Set.sdiff_subset_sdiff_left h₂ ha, hv⟩⟩

/-- A symbol for a factor that may be absent. -/
theorem creates_factor (h₀ : S₀ ⊆ S) (s : Option Shape) (name : String) :
    Creates S (s.mapM (Expr.newSymbol name : Shape → Build (Expr α))) (Expr.NewOption S₀) := by
  cases s with
  | none => exact creates_pure Expr.newOption_none
  | some s => exact (createsNode_symbol h₀ name s).map fun _ _ _ => Expr.newOption_some

theorem LowRankDle.creates_declare (h₀ : S₀ ⊆ S) (e : LowRankDle) :
    Creates S (e.declare (α := α)) (NewDeclared LowRankInputs.operands S₀) := by
  refine creates_bind (createsNode_symbol h₀ _ _) fun S₁ a h₁ ha => ?_
  refine creates_bind (createsNode_symbol (h₀.trans h₁) _ _) fun S₂ v h₂ hv => ?_
  have h₁₂ : S ⊆ S₂ := h₁.trans h₂
  refine creates_bind (creates_factor (h₀.trans h₁₂) e.c "C") fun S₃ c h₃ hc => ?_
  refine (creates_factor (h₀.trans (h₁₂.trans h₃)) e.h "H").map fun S₄ h h₄ hh => ⟨?_, ?_⟩
  · simp [LowRankInputs.operands, Function.comp_def]
  · exact LowRankInputs.forall_operands.2 ⟨⟨Set.sdiff_subset_sdiff_left (h₂.trans (h₃.trans h₄)) ha,
      Set.sdiff_subset_sdiff_left (h₃.trans h₄) hv⟩, hc.mono h₄, hh⟩

section

variable [Scalar α]

/-- The declarations of the class and all its methods create new nodes. -/
structure Problem.CreatesNodes (σ : Type) {ι : Type → Type} [Problem σ ι] (operands : ι α → List (Expr α)) :
    Prop where
  declare : ∀ {S₀ S : Set (Expr α)} (problem : σ), S₀ ⊆ S →
    Creates S (Problem.declare problem) (NewDeclared operands S₀)
  plugins : ∀ p ∈ Problem.plugins σ α, p.CreatesNode operands

theorem Dle.createsNodes : Problem.CreatesNodes (α := α) Dle DleInputs.operands where
  declare problem h₀ := problem.creates_declare h₀
  plugins := Dle.createsNode_plugins

theorem LowRankDle.createsNodes : Problem.CreatesNodes (α := α) LowRankDle LowRankInputs.operands where
  declare problem h₀ := problem.creates_declare h₀
  plugins := LowRankDle.createsNode_plugins

variable {σ : Type} {ι : Type → Type} [Problem σ ι] {operands : ι α → List (Expr α)}

namespace Solver

/-- The inputs and the output of a solver are new, whatever the solver is made of. -/
theorem creates_make (h : Problem.CreatesNodes σ operands) (h₀ : S₀ ⊆ S) (name plugin : String) (problem : σ)
    (options : Options) :
    TryBuild.Creates S (make name plugin problem options : TryBuild (Solver σ ι α)) fun S' solver =>
      ∀ e ∈ solver.function.roots, e ∈ S' \ S₀ := by
  unfold make
  split
  · exact TryBuild.creates_throw _
  · rename_i found hfound
    have hfound := h.plugins found (List.mem_of_find?_eq_some hfound)
    refine TryBuild.creates_check _ fun _ _ => TryBuild.creates_check _ fun resolved _ => ?_
    refine TryBuild.creates_bind (TryBuild.creates_liftBuild (h.declare problem h₀))
      fun S₁ (inputs, symbols) h₁ ⟨hsymbols, hinputs⟩ => ?_
    refine TryBuild.creates_bind (hfound S₀ S₁ inputs resolved (h₀.trans h₁) fun e he => (hinputs e he).1)
      fun S₂ output h₂ houtput => ?_
    refine TryBuild.creates_check _ fun _ _ => TryBuild.creates_check _ fun f hf => ?_
    refine TryBuild.creates_pure (Func.forall_roots.2 ?_)
    obtain ⟨-, hi, ho⟩ := Func.make_eq_ok hf
    rw [hi, ho]
    refine ⟨fun p hp => ?_, List.forall_mem_singleton.2 houtput⟩
    have hp : p.2 ∈ operands inputs := hsymbols ▸ List.mem_map_of_mem hp
    exact Set.sdiff_subset_sdiff_left h₂ (hinputs _ hp)

end Solver

end

end Lyapunov
