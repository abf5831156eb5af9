/-
The operations that take expressions to expressions: the operators, the operations on matrices, the
methods and the projection. They return new nodes. Four of them have arguments for which there is
nothing to do, and they return this argument without creating a node.
-/
import Lyapunov.Proofs.Method.Creation

namespace Lyapunov

open Build

/-- An operation with its arguments. -/
inductive Operation (α : Type) where
  | neg (x : Expr α)
  | add (x y : Expr α)
  | sub (x y : Expr α)
  | scale (factor : α) (x : Expr α)
  | divide (x : Expr α) (divisor : α)
  | transpose (x : Expr α)
  | matmul (x y : Expr α)
  | mul3 (x y z : Expr α)
  | congruence (a x : Expr α)
  | symmetrize (x : Expr α)
  | kron (x y : Expr α)
  | kronContractLeft (g b : Expr α)
  | kronContractRight (g a : Expr α)
  | reshape (x : Expr α) (shape : Shape)
  | vectorize (x : Expr α)
  | solve (m b : Expr α)
  | horzsplit (x : Expr α) (widths : List Nat)
  | diagcat (blocks : List (Expr α))
  | attachAssert (x condition : Expr α) (message : String)
  | smithDle (a v : Expr α) (settings : Smith.Settings)
  | smithLowRank (inputs : LowRankInputs α) (iter : Nat)
  | kroneckerDle (a v : Expr α)
  | kroneckerLowRank (inputs : LowRankInputs α)
  | project (inputs : LowRankInputs α) (p : Expr α)

/-- The result of a computation as the only one. -/
def Build.single {β : Type} (m : Build β) : Build (List β) := do return [← m]

theorem Build.createsNodes_single {α : Type} {S₀ S : Set (Expr α)} {m : Build (Expr α)}
    (h : CreatesNode S₀ S m) : CreatesNodes S₀ S (single m) :=
  h.map fun _ _ _ he => List.forall_mem_singleton.2 he

namespace Operation

variable {α : Type}

/-- The expressions among the arguments. -/
def operands : Operation α → List (Expr α)
  | .neg x | .scale _ x | .divide x _ | .transpose x | .symmetrize x | .reshape x _ | .vectorize x
  | .horzsplit x _ => [x]
  | .add x y | .sub x y | .matmul x y | .congruence x y | .kron x y | .kronContractLeft x y
  | .kronContractRight x y | .solve x y | .attachAssert x y _ | .smithDle x y _ | .kroneckerDle x y => [x, y]
  | .mul3 x y z => [x, y, z]
  | .diagcat blocks => blocks
  | .smithLowRank inputs _ => inputs.operands
  | .kroneckerLowRank inputs => inputs.operands
  | .project inputs p => p :: inputs.operands

/-- The operation has nothing to do and gives back the argument `x`: a matrix under its own shape, a
column as a column, a single block, or a solution without factor. -/
inductive GivesBack : Operation α → Expr α → Prop
  | reshape {x : Expr α} {s : Shape} : x.shape = s → GivesBack (.reshape x s) x
  | vectorize {x : Expr α} : x.shape = .vector x.shape.size → GivesBack (.vectorize x) x
  | diagcat (b : Expr α) : GivesBack (.diagcat [b]) b
  | project {inputs : LowRankInputs α} (p : Expr α) : inputs.h = none → GivesBack (.project inputs p) p

theorem GivesBack.mem_operands {op : Operation α} {x : Expr α} (h : op.GivesBack x) : x ∈ op.operands := by
  cases h with
  | reshape | vectorize | diagcat | project => exact List.mem_cons_self

variable [Scalar α]

/-- Carries out the operation. -/
def build : Operation α → Build (List (Expr α))
  | .neg x => single x.neg
  | .add x y => single (x.add y)
  | .sub x y => single (x.sub y)
  | .scale factor x => single (x.scale factor)
  | .divide x divisor => single (x.divide divisor)
  | .transpose x => single x.transpose
  | .matmul x y => single (x.matmul y)
  | .mul3 x y z => single (Expr.mul3 x y z)
  | .congruence a x => single (a.congruence x)
  | .symmetrize x => single x.symmetrize
  | .kron x y => single (x.kron y)
  | .kronContractLeft g b => single (g.kronContractLeft b)
  | .kronContractRight g a => single (g.kronContractRight a)
  | .reshape x shape => single (x.reshape shape)
  | .vectorize x => single x.vectorize
  | .solve m b => single (m.solve b)
  | .horzsplit x widths => x.horzsplit widths
  | .diagcat blocks => single (Expr.diagcat blocks)
  | .attachAssert x condition message => single (x.attachAssert condition message)
  | .smithDle a v settings => single (Smith.dle a v settings)
  | .smithLowRank inputs iter => single (Smith.lowRank inputs iter)
  | .kroneckerDle a v => single (Kronecker.dle a v)
  | .kroneckerLowRank inputs => single (Kronecker.lowRank inputs)
  | .project inputs p => single (inputs.project p)

/-- Where an operation has nothing to do, it creates no node. -/
theorem build_of_givesBack {op : Operation α} {x : Expr α} (h : op.GivesBack x) : op.build = pure [x] := by
  cases h with
  | reshape h => exact congrArg single (Expr.reshape_of_shape h)
  | vectorize h => exact congrArg single (Expr.reshape_of_shape h)
  | diagcat b => rfl
  | @project inputs _ h =>
    obtain ⟨a, v, c, h, widths⟩ := inputs
    cases h
    rfl

variable {S₀ S : Set (Expr α)}

omit [Scalar α] in
/-- Under its own shape a matrix is given back, under another shape it is a new one. -/
theorem createsNodes_reshape (h₀ : S₀ ⊆ S) {x : Expr α} (hx : x ∈ S) (s : Shape)
    (hback : x.shape = s → x ∉ S₀) : CreatesNodes S₀ S (single (x.reshape s)) := by
  refine createsNodes_single ?_
  by_cases h : x.shape = s
  · rw [Expr.reshape_of_shape h]
    exact creates_pure ⟨hx, hback h⟩
  · exact Expr.createsNode_reshape h₀ hx h

/-- The results are new, apart from an argument that is given back. -/
theorem createsNodes_build (h₀ : S₀ ⊆ S) {op : Operation α} (hops : ∀ e ∈ op.operands, e ∈ S)
    (hback : ∀ x, op.GivesBack x → x ∉ S₀) : CreatesNodes S₀ S op.build := by
  have hfirst {x : Expr α} {xs : List (Expr α)} (h : ∀ e ∈ x :: xs, e ∈ S) : x ∈ S := h x List.mem_cons_self
  have hsecond {x y : Expr α} {xs : List (Expr α)} (h : ∀ e ∈ x :: y :: xs, e ∈ S) : y ∈ S :=
    hfirst (List.forall_mem_cons.1 h).2
  cases op with
  | neg | scale | divide | transpose => exact createsNodes_single (createsNode_unary h₀ (hfirst hops) _)
  | add | matmul | kron | kronContractLeft | kronContractRight | solve | attachAssert =>
    exact createsNodes_single (createsNode_binary h₀ (hfirst hops) (hsecond hops) _)
  | sub => exact createsNodes_single (Expr.createsNode_sub h₀ (hfirst hops) (hsecond hops))
  | mul3 x y z =>
    have hz : z ∈ S := hops z (by simp [operands])
    exact createsNodes_single (Expr.createsNode_mul3 h₀ (hfirst hops) (hsecond hops) hz)
  | congruence => exact createsNodes_single (Expr.createsNode_congruence h₀ (hfirst hops) (hsecond hops))
  | symmetrize => exact createsNodes_single (Expr.createsNode_symmetrize h₀ (hfirst hops))
  | reshape x s => exact createsNodes_reshape h₀ (hfirst hops) s fun h => hback x (.reshape h)
  | vectorize x => exact createsNodes_reshape h₀ (hfirst hops) _ fun h => hback x (.vectorize h)
  | horzsplit x widths => exact Expr.createsNodes_horzsplit h₀ (hfirst hops) widths
  | diagcat blocks =>
    refine createsNodes_single (Expr.createsNode_diagcat h₀ hops fun b hb => ?_)
    subst hb
    exact hback b (.diagcat b)
  | smithDle a v settings =>
    exact createsNodes_single (Smith.createsNode_dle h₀ (hfirst hops) (hsecond hops) settings)
  | smithLowRank inputs iter => exact createsNodes_single (Smith.createsNode_lowRank h₀ hops iter)
  | kroneckerDle a v => exact createsNodes_single (Kronecker.createsNode_dle h₀ (hfirst hops) (hsecond hops))
  | kroneckerLowRank inputs => exact createsNodes_single (Kronecker.createsNode_lowRank h₀ hops)
  | project inputs p =>
    exact createsNodes_single (LowRankInputs.createsNode_project h₀ (List.forall_mem_cons.1 hops).2
      (hfirst hops) fun h => hback p (.project p h))

end Operation

end Lyapunov
