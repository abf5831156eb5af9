/-
When derivatives exist. A derivative is refused only because a name that it gives is taken: a forward
derivative always, a reverse derivative where no Kronecker product or contraction is empty. When it
exists it adds, direction by direction, a seed shaped like each of its targets and a node shaped like
each of its results; on the way every adjoint has the shape of its node.
-/
import Lyapunov.Proofs.Derivative.Reverse

namespace Lyapunov

open Build

variable {α : Type}

/-! ## What a derivative adds -/

/-- The node has the shape of the target and stands under its tagged name. -/
structure IsTagged (tag : String) (target node : String × Expr α) : Prop where
  name : node.1 = tag ++ target.1
  shape : node.2.shape = target.2.shape

/-- The function `g` is `f` with `n` directions: each one adds a seed for each target to the inputs and
a node for each result to the outputs. -/
def Func.ExtendedBy (f g : Func α) (tag : Nat → String) (targets results : List (String × Expr α))
    (n : Nat) : Prop :=
  ∃ added : List (Added α),
    g.inputs = f.inputs ++ added.flatMap (·.1) ∧ g.outputs = f.outputs ++ added.flatMap (·.2) ∧
    List.Forall₂ (fun d r => List.Forall₂ (IsSeed (tag d)) targets r.1 ∧
      List.Forall₂ (IsTagged (tag d)) results r.2) (List.range n) added

theorem Directed.extendedBy {S : Set (Expr α)} {tag : Nat → String}
    {targets results : List (String × Expr α)} {n : Nat} {rs : List (Added α)} {f g : Func α}
    {name : String} (h : Directed True S tag targets results (List.range n) rs)
    (hg : Func.make name (f.inputs ++ rs.flatMap (·.1)) (f.outputs ++ rs.flatMap (·.2)) = .ok g) :
    f.ExtendedBy g tag targets results n := by
  obtain ⟨-, hi, ho⟩ := Func.make_eq_ok hg
  refine ⟨rs, hi, ho, h.imp fun d r hr => ⟨hr.1, hr.2.imp fun y o ho => ⟨ho.name, ?_⟩⟩⟩
  exact ho.node.shape trivial

namespace Func

variable [Scalar α] {f : Func α} {s : Nat}

/-! ## Forward derivatives -/

/-- A forward derivative exists exactly when no name that it gives is taken, and otherwise fails with a
name clash. It adds a seed shaped like each input and a rate of change shaped like each output for each
direction. -/
theorem forward_generates (hf : f.NumberedBelow s) (n : Nat) :
    ((∃ g s', (f.forward n).run.run s = (.ok g, s')) ↔
      ∀ d < n, (∀ x ∈ f.inputNames, s!"fwd{d}_" ++ x ∉ f.inputNames) ∧
        ∀ y ∈ f.outputNames, s!"fwd{d}_" ++ y ∉ f.outputNames) ∧
    (∀ err s', (f.forward n).run.run s = (.error err, s') → NameClash s!"fwd{n}_{f.name}" err) ∧
    ∀ g s', (f.forward n).run.run s = (.ok g, s') →
      f.ExtendedBy g (fun d => s!"fwd{d}_") f.inputs f.outputs n := by
  obtain ⟨S, hext, hadded⟩ := exists_extension_forward (F := True) (R := fun _ => True) hf
    (fun _ _ _ => trivial) n
  refine ⟨exists_forward_iff hf n, fun err s' herr => ?_, fun g s' hg => ?_⟩
  · rw [run_forward] at herr
    exact hext.nameClash (Prod.mk.inj herr).1
  · rw [run_forward] at hg
    exact hadded.extendedBy (Prod.mk.inj hg).1

/-- The square has a forward derivative in two directions. -/
theorem forward_generates_square : ∃ (f g : Func ℚ) (s : Nat), f.NumberedBelow 2 ∧
    (f.forward 2).run.run 2 = (.ok g, s) ∧
    f.ExtendedBy g (fun d => s!"fwd{d}_") f.inputs f.outputs 2 := by
  obtain ⟨f, hi, ho, hf, -, -⟩ := exists_square
  obtain ⟨hiff, -, hextended⟩ := forward_generates hf 2
  obtain ⟨g, s, hg⟩ := hiff.2 fun d hd => by
    simp only [inputNames, outputNames, hi, ho]
    obtain rfl | rfl : d = 0 ∨ d = 1 := by omega
    all_goals decide
  exact ⟨f, g, s, hf, hg, hextended g s hg⟩

/-! ## Reverse derivatives -/

/-- The adjoints of a direction after some nodes have handed theirs down. -/
def sweptAdjoints (f : Func α) (direction : Nat) (handled : List (Expr α)) : Build (Adjoints α) := do
  let seeds ← newSeeds (directionTag "adj" direction) f.outputs
  let start ← f.startAdjoints seeds
  handled.foldlM Adjoints.step start

/-- A direction ends with the adjoints of the inputs. -/
theorem reverseDirection_eq (f : Func α) (order : List (Expr α)) (direction : Nat) :
    f.reverseDirection order direction = (do
      let seeds ← newSeeds (directionTag "adj" direction) f.outputs
      let start ← f.startAdjoints seeds
      let adjoints ← order.reverse.foldlM Adjoints.step start
      let gradients ← f.inputs.mapM fun (name, e) =>
        return (directionTag "adj" direction ++ name, ← orZeros e.shape adjoints[e.id]?)
      return (seeds, gradients)) := rfl

omit [Scalar α] in
/-- At every moment of a sweep the adjoints have the shapes of their nodes. -/
theorem shape_sweptAdjoints (hf : f.NumberedBelow s) (hblocks : ∀ e ∈ f.nodes, e.Contractible)
    {handled : List (Expr α)} (hnodes : ∀ e ∈ handled, e ∈ f.nodes) (direction : Nat) {x : Expr α}
    (hx : x ∈ f.nodes) {bar : Expr α}
    (hbar : ((f.sweptAdjoints direction handled).run s).1[x.id]? = some bar) : bar.shape = x.shape := by
  -- which symbols occur does not matter here
  have hstore : Store (Fits True (fun _ => True) Set.univ) s f.nodes :=
    (hf.store (F := True) (R := fun _ => True) fun _ _ _ => trivial).imp
      fun e _ he => ⟨he.check, fun _ => trivial⟩
  have hgrows : Grows (Fits True (fun _ => True) Set.univ) f.nodes (f.sweptAdjoints direction handled)
      (Fitted True f.nodes) := by
    refine grows_bind (Func.grows_newSeeds (directionTag "adj" direction)
      (fun p _ i name => ⟨fun _ => ⟨rfl, trivial⟩, fun _ => trivial⟩) _) fun S seeds hS hseeds => ?_
    refine grows_bind (grows_startAdjoints hf hseeds.1 hseeds.2.1.mem fun _ _ _ => trivial)
      fun S' start hS' hstart => ?_
    exact Adjoints.grows_sweep (fun _ _ => trivial) hf.graph hstore.holds (fun _ => hblocks)
      (hS.trans hS') hnodes hstart
  obtain ⟨S, -, -, hfitted⟩ := hgrows s hstore
  exact (hfitted x hx bar hbar).shape trivial

/-- Where no Kronecker product or contraction that the outputs can reach has an empty operand or result,
a reverse derivative exists exactly when no name that it gives is taken, and otherwise fails with a name
clash. It adds a seed shaped like each output and an adjoint shaped like each input for each direction.
Throughout the sweep of a direction, whatever numbers its new nodes have, the adjoints have the shapes of
their nodes. -/
theorem reverse_generates (hf : f.NumberedBelow s)
    (hblocks : ∀ e, Expr.Reachable (f.outputs.map (·.2)) e → e.Contractible) (n : Nat) :
    ((∃ g s', (f.reverse n).run.run s = (.ok g, s')) ↔
      ∀ d < n, (∀ y ∈ f.outputNames, s!"adj{d}_" ++ y ∉ f.inputNames) ∧
        ∀ x ∈ f.inputNames, s!"adj{d}_" ++ x ∉ f.outputNames) ∧
    (∀ err s', (f.reverse n).run.run s = (.error err, s') → NameClash s!"adj{n}_{f.name}" err) ∧
    (∀ (d s' : Nat) handled rest, s ≤ s' →
      (Expr.topologicalOrder (f.outputs.map (·.2))).reverse = handled ++ rest →
      ∀ x ∈ f.nodes, ∀ bar, ((f.sweptAdjoints d handled).run s').1[x.id]? = some bar →
        bar.shape = x.shape) ∧
    ∀ g s', (f.reverse n).run.run s = (.ok g, s') →
      f.ExtendedBy g (fun d => s!"adj{d}_") f.outputs f.inputs n := by
  have hblocks' : ∀ e ∈ f.nodes, e.Contractible := fun e he => by
    rcases f.mem_nodes he with ⟨p, hp, rfl⟩ | hr
    · exact Expr.contractible_of_isSymbol (f.named.symbols p hp)
    · exact hblocks e hr
  obtain ⟨S, hext, hadded⟩ := exists_extension_reverse (F := True) (R := fun _ => True) hf
    (fun _ _ => trivial) (fun _ _ _ => trivial) (fun _ => hblocks') n
  refine ⟨exists_reverse_iff_of_contractible hf hblocks' n, fun err s' herr => ?_,
    fun d s' handled rest hs horder x hx bar hbar => ?_, fun g s' hg => ?_⟩
  · rw [run_reverse] at herr
    exact hext.nameClash (Prod.mk.inj herr).1
  · have hnodes : ∀ e ∈ handled, e ∈ f.nodes := fun e he => by
      refine hf.order_mem_nodes e (List.mem_reverse.1 ?_)
      rw [horder]
      exact List.mem_append_left _ he
    exact shape_sweptAdjoints (hf.mono hs) hblocks' hnodes d hx hbar
  · rw [run_reverse] at hg
    exact hadded.extendedBy (Prod.mk.inj hg).1

/-- A row of two numbers and its Kronecker product with itself. -/
def kroneckerSquare : List (Expr ℚ) :=
  let a := .symbol 0 "a" ⟨1, 2⟩
  [a, .binary 1 .kron a a]

/-- The Kronecker square of a row has a reverse derivative in two directions. -/
theorem reverse_generates_kroneckerSquare : ∃ (f g : Func ℚ) (s : Nat),
    f.outputs = [("y", kroneckerSquare[1])] ∧ f.NumberedBelow 2 ∧
    (∀ e, Expr.Reachable (f.outputs.map (·.2)) e → e.Contractible) ∧
    (f.reverse 2).run.run 2 = (.ok g, s) ∧
    f.ExtendedBy g (fun d => s!"adj{d}_") f.outputs f.inputs 2 := by
  have hS : IsGraph {e | e ∈ kroneckerSquare} :=
    isGraph_list (by simp [kroneckerSquare, Expr.operands]) (by simp [kroneckerSquare, Expr.id])
  have hnamed : Named [("a", kroneckerSquare[0])] [("y", kroneckerSquare[1])] :=
    ⟨by decide, by decide, by decide, by decide⟩
  obtain ⟨f, hi, ho, hf, hnodes⟩ := exists_of_list hS "f" hnamed (by simp [kroneckerSquare])
    (by simp [kroneckerSquare]) (by decide) (n := 2) (by decide)
  -- neither the row nor the product is empty
  have hentries : ∀ e ∈ f.nodes, e.shape.HasEntries := fun e he =>
    (by decide : ∀ e ∈ kroneckerSquare, e.shape.size ≠ 0) e (hnodes e he)
  have hblocks : ∀ e, Expr.Reachable (f.outputs.map (·.2)) e → e.Contractible := fun e he =>
    hf.contractible hentries e (f.mem_nodes_of_reachable he)
  obtain ⟨hiff, -, -, hextended⟩ := reverse_generates hf hblocks 2
  obtain ⟨g, s, hg⟩ := hiff.2 fun d hd => by
    simp only [inputNames, outputNames, hi, ho]
    obtain rfl | rfl : d = 0 ∨ d = 1 := by omega
    all_goals decide
  exact ⟨f, g, s, ho, hf, hblocks, hg, hextended g s hg⟩

end Func

end Lyapunov
