/-
The nodes that a derivative creates. Under a condition `F`, every node of the graph has operands that
fit and a shape with a property `R`; without it, only the graph itself is kept track of. The operators
create nodes of the shapes that belong to them.
-/
import Lyapunov.Func.Forward
import Lyapunov.Proofs.Graph.Growth
import Lyapunov.Proofs.Tape.Shapes

namespace Lyapunov

variable {α : Type}

/-- What is required of a node: under the condition `F` its operands fit and its shape has the
property `R`, and if it is a symbol then it is one of `T`. -/
structure Fits (F : Prop) (R : Shape → Prop) (T : Set (Expr α)) (e : Expr α) : Prop where
  check : F → e.checkOperands = .ok () ∧ R e.shape
  symbol : e.isSymbol = true → e ∈ T

/-- A node of the graph `S`, under the condition `F` with the shape `s`. -/
structure Node (F : Prop) (S : Set (Expr α)) (s : Shape) (e : Expr α) : Prop where
  mem : e ∈ S
  shape : F → e.shape = s

/-- If there is a node, it is one of the graph with the shape `s`. -/
def OptNode (F : Prop) (S : Set (Expr α)) (s : Shape) (o : Option (Expr α)) : Prop :=
  ∀ e, o = some e → Node F S s e

section

variable {F : Prop} {R : Shape → Prop} {S S' T : Set (Expr α)} {s t : Shape} {x y : Expr α}

theorem Node.mono (h : Node F S s x) (hS : S ⊆ S') : Node F S' s x := ⟨hS h.mem, h.shape⟩

theorem OptNode.mono {o : Option (Expr α)} (h : OptNode F S s o) (hS : S ⊆ S') : OptNode F S' s o :=
  fun e he => (h e he).mono hS

theorem optNode_none : OptNode F S s (none : Option (Expr α)) := fun _ h => by cases h

theorem optNode_some (h : Node F S s x) : OptNode F S s (some x) := fun _ he => Option.some.inj he ▸ h

theorem Node.cast (h : Node F S s x) (hs : F → s = t) : Node F S t x :=
  ⟨h.mem, fun hF => (h.shape hF).trans (hs hF)⟩

/-- The nodes that the map holds for the nodes of `G`, by number, are nodes of the graph of the same
shapes. -/
def Fitted (F : Prop) (G S : Set (Expr α)) (t : Std.HashMap Nat (Expr α)) : Prop :=
  ∀ x ∈ G, OptNode F S x.shape t[x.id]?

theorem Fitted.mono {G : Set (Expr α)} {m : Std.HashMap Nat (Expr α)} (h : Fitted F G S m)
    (hS : S ⊆ S') : Fitted F G S' m := fun x hx => (h x hx).mono hS

theorem Fitted.insert {G : Set (Expr α)} {m : Std.HashMap Nat (Expr α)} (hG : IsGraph G)
    (h : Fitted F G S m) {e d : Expr α} (he : e ∈ G) (hd : Node F S e.shape d) :
    Fitted F G S (m.insert e.id d) := by
  intro x hx
  rw [Std.HashMap.getElem?_insert]
  split
  · rename_i hid
    rw [hG.unique e he x hx (by simpa using hid)] at hd
    exact optNode_some hd
  · exact h x hx

namespace Build

/-! ## Single nodes -/

theorem grows_unary (op : UnaryOp α) (hx : Node F S s x)
    (hc : F → op.check s = .ok () ∧ R (op.shape s)) :
    Grows (Fits F R T) S (Expr.newUnary op x) (Node F · (op.shape s)) := by
  have hP (i : Nat) : Fits F R T (.unary i op x) := by
    refine ⟨fun hF => ?_, fun h => by cases h⟩
    obtain ⟨h1, h2⟩ := hc hF
    rw [← hx.shape hF] at h1 h2
    exact ⟨h1, h2⟩
  refine (grows_newUnary hx.mem hP).imp ?_
  rintro S' e - ⟨he, hs⟩
  exact ⟨he, fun hF => by rw [hs, hx.shape hF]⟩

theorem grows_binary (op : BinaryOp) (hx : Node F S s x) (hy : Node F S t y)
    (hc : F → op.check s t = .ok () ∧ R (op.shape s t)) :
    Grows (Fits F R T) S (Expr.newBinary op x y) (Node F · (op.shape s t)) := by
  have hP (i : Nat) : Fits F R T (.binary i op x y) := by
    refine ⟨fun hF => ?_, fun h => by cases h⟩
    obtain ⟨h1, h2⟩ := hc hF
    rw [← hx.shape hF, ← hy.shape hF] at h1 h2
    exact ⟨h1, h2⟩
  refine (grows_newBinary hx.mem hy.mem hP).imp ?_
  rintro S' e - ⟨he, hs⟩
  exact ⟨he, fun hF => by rw [hs, hx.shape hF, hy.shape hF]⟩

theorem grows_reshape (hx : Node F S s x) (hs : F → s.size = t.size ∧ R t) :
    Grows (Fits F R T) S (x.reshape t) (Node F · t) := by
  unfold Expr.reshape
  split
  · rename_i h
    exact grows_pure ⟨hx.mem, fun _ => h⟩
  · refine grows_unary _ hx fun hF => ⟨?_, (hs hF).2⟩
    exact Shape.require_eq_ok.2 (beq_iff_eq.2 (hs hF).1)

theorem grows_zeros [Zero α] (hR : F → R s) :
    Grows (Fits F R T) S (Expr.zeros s) (Node F · s) := by
  unfold Expr.zeros
  refine (grows_newConstant fun i => ⟨fun hF => ⟨rfl, hR hF⟩, fun h => by cases h⟩).imp ?_
  rintro S' e - ⟨he, hs⟩
  exact ⟨he, fun _ => hs⟩

/-! ## Nodes that may be absent -/

theorem grows_mapOption {f : Expr α → Build (Expr α)} {o : Option (Expr α)} (ho : OptNode F S s o)
    (hf : ∀ e, Node F S s e → Grows (Fits F R T) S (f e) (Node F · t)) :
    Grows (Fits F R T) S (Expr.mapOption f o) (OptNode F · t) := by
  cases o with
  | none => exact grows_pure optNode_none
  | some e =>
    refine grows_bind (hf e (ho e rfl)) fun S' d _ hd => ?_
    exact grows_pure (optNode_some hd)

theorem grows_addOption {o p : Option (Expr α)} (ho : OptNode F S s o) (hp : OptNode F S s p)
    (hR : F → R s) : Grows (Fits F R T) S (Expr.addOption o p) (OptNode F · s) := by
  cases o with
  | none => exact grows_pure hp
  | some x =>
    cases p with
    | none => exact grows_pure ho
    | some y =>
      have hadd : Grows (Fits F R T) S (x.add y) (Node F · s) :=
        grows_binary .add (ho x rfl) (hp y rfl) fun hF =>
          ⟨Shape.require_eq_ok.2 (beq_iff_eq.2 rfl), hR hF⟩
      exact grows_bind hadd fun S' d _ hd => grows_pure (optNode_some hd)

theorem grows_orZeros [Zero α] {o : Option (Expr α)} (ho : OptNode F S s o) (hR : F → R s) :
    Grows (Fits F R T) S (Func.orZeros s o) (Node F · s) := by
  cases o with
  | none => exact grows_zeros hR
  | some e => exact grows_pure (ho e rfl)

/-! ## Values of new nodes -/

section Value

variable [Scalar α] {env : Nat → Dense α} {a b v : Dense α}

theorem returns_unary (op : UnaryOp α) (hx : x.Computes env a) :
    (Expr.newUnary op x).Returns (Expr.Computes env · (op.eval a)) :=
  returns_newUnary fun i => hx.unary i op

theorem returns_binary (op : BinaryOp) (hx : x.Computes env a) (hy : y.Computes env b)
    (hc : op.check a.shape b.shape = .ok ()) (hv : op.eval a b = .ok v) :
    (Expr.newBinary op x y).Returns (Expr.Computes env · v) :=
  returns_newBinary fun i => hx.binary hy hc hv i

end Value

end Build

end

end Lyapunov
