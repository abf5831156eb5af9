/-
The systems that derivatives solve. Differentiation creates systems only for the systems of the function,
with the same matrix in a forward sweep and its transpose in a reverse sweep.
-/
import Lyapunov.Proofs.Derivative.Nesting

namespace Lyapunov

open Build

variable {α : Type}

namespace Expr

/-- The node is the matrix of a system that is solved in the graph. -/
def SystemIn (G : Set (Expr α)) (m : Expr α) : Prop := ∃ i b, .binary i .solve m b ∈ G

/-- If the node solves a system, then its matrix is that of a system in the graph, or the transpose of one. -/
def SolvesIn (G : Set (Expr α)) (e : Expr α) : Prop :=
  ∀ i m b, e = .binary i .solve m b →
    m.SystemIn G ∨ ∃ j m', m = .unary j .transpose m' ∧ m'.SystemIn G

/-- All systems below the node are those of the graph. -/
abbrev SystemsOf (G : Set (Expr α)) (e : Expr α) : Prop := e.All (SolvesIn G)

variable {G : Set (Expr α)} {e : Expr α}

theorem solvesIn_of_mem (h : e ∈ G) : e.SolvesIn G := by
  rintro i m b rfl
  exact .inl ⟨i, b, h⟩

theorem solvesIn_constant (i : Nat) (m : Dense α) : (constant i m).SolvesIn G := by
  intro _ _ _ h
  cases h

theorem solvesIn_unary (i : Nat) (op : UnaryOp α) (x : Expr α) : (unary i op x).SolvesIn G := by
  intro _ _ _ h
  cases h

theorem systemsOf_of_mem (hG : IsGraph G) (h : e ∈ G) : e.SystemsOf G :=
  fun _ hx => solvesIn_of_mem (hG.below h hx)

theorem systemsOf_of_isSymbol (h : e.isSymbol = true) : e.SystemsOf G := by
  rw [SystemsOf, all_iff, operands_of_isSymbol h]
  refine ⟨?_, by simp⟩
  rintro i m b rfl
  cases h

end Expr

section Nodes

variable {G : Set (Expr α)} {x y : Expr α}

/-! ## New nodes -/

theorem returns_unary_systems (op : UnaryOp α) (hx : x.SystemsOf G) :
    (Expr.newUnary op x).Returns (Expr.SystemsOf G) :=
  returns_newUnary fun i => Expr.all_unary.2 ⟨Expr.solvesIn_unary i op x, hx⟩

theorem returns_binary_systems {op : BinaryOp} (hop : op ≠ .solve) (hx : x.SystemsOf G)
    (hy : y.SystemsOf G) : (Expr.newBinary op x y).Returns (Expr.SystemsOf G) := by
  refine returns_newBinary fun i => Expr.all_binary.2 ⟨?_, hx, hy⟩
  rintro _ _ _ h
  cases h
  exact absurd rfl hop

/-- The transpose is a new node. -/
theorem returns_transpose_systems (hx : x.SystemsOf G) :
    x.transpose.Returns fun xt => xt.SystemsOf G ∧ ∃ j, xt = .unary j .transpose x :=
  fun n => ⟨returns_unary_systems .transpose hx n, n, rfl⟩

theorem returns_solve_systems (hm : x.SystemIn G ∨ ∃ j m, x = .unary j .transpose m ∧ m.SystemIn G)
    (hx : x.SystemsOf G) (hy : y.SystemsOf G) : (x.solve y).Returns (Expr.SystemsOf G) := by
  refine returns_newBinary fun i => Expr.all_binary.2 ⟨?_, hx, hy⟩
  rintro _ _ _ h
  cases h
  exact hm

theorem returns_reshape_systems (hx : x.SystemsOf G) (s : Shape) :
    (x.reshape s).Returns (Expr.SystemsOf G) := by
  unfold Expr.reshape
  split
  · exact returns_pure hx
  · exact returns_unary_systems _ hx

theorem returns_orZeros_systems [Zero α] {o : Option (Expr α)} (ho : ∀ e ∈ o, e.SystemsOf G) (s : Shape) :
    (Func.orZeros s o).Returns (Expr.SystemsOf G) := by
  cases o with
  | none =>
    exact returns_newConstant fun i => Expr.all_iff.2 ⟨Expr.solvesIn_constant i _, by simp [Expr.operands]⟩
  | some e => exact returns_pure (ho e rfl)

theorem returns_mapOption_systems {f : Expr α → Build (Expr α)} {o : Option (Expr α)}
    (ho : ∀ e ∈ o, e.SystemsOf G) (hf : ∀ e, e.SystemsOf G → (f e).Returns (Expr.SystemsOf G)) :
    (Expr.mapOption f o).Returns fun p => ∀ e ∈ p, e.SystemsOf G := by
  cases o with
  | none => exact returns_pure (by simp)
  | some e => exact returns_bind (hf e (ho e rfl)) fun d hd => returns_pure (by simpa using hd)

theorem returns_addOption_systems {o p : Option (Expr α)} (ho : ∀ e ∈ o, e.SystemsOf G)
    (hp : ∀ e ∈ p, e.SystemsOf G) :
    (Expr.addOption o p).Returns fun q => ∀ e ∈ q, e.SystemsOf G := by
  cases o with
  | none => exact returns_pure hp
  | some x =>
    cases p with
    | none => exact returns_pure ho
    | some y =>
      have hadd := returns_binary_systems (show BinaryOp.add ≠ .solve by simp) (ho x rfl) (hp y rfl)
      exact returns_bind hadd fun d hd => returns_pure (by simpa using hd)

/-! ## The forward sweep -/

theorem UnaryOp.returns_tangent_systems (op : UnaryOp α) {dx : Expr α} (hdx : dx.SystemsOf G) :
    (op.tangent dx).Returns (Expr.SystemsOf G) := by
  cases op with
  | reshape s => exact returns_reshape_systems hdx s
  | _ => exact returns_unary_systems _ hdx

theorem Expr.returns_productTangent_systems {op : BinaryOp} (hop : op ≠ .solve) (hx : x.SystemsOf G)
    (hy : y.SystemsOf G) {dx dy : Option (Expr α)} (hdx : ∀ e ∈ dx, e.SystemsOf G)
    (hdy : ∀ e ∈ dy, e.SystemsOf G) :
    (Expr.productTangent (Expr.newBinary op) x y dx dy).Returns fun o => ∀ e ∈ o, e.SystemsOf G := by
  refine returns_bind (returns_mapOption_systems hdx fun e he => returns_binary_systems hop he hy)
    fun o ho => ?_
  refine returns_bind (returns_mapOption_systems hdy fun e he => returns_binary_systems hop hx he)
    fun p hp => ?_
  exact returns_addOption_systems ho hp

theorem BinaryOp.returns_tangent_systems {op : BinaryOp} {i : Nat} (he : Expr.binary i op x y ∈ G)
    (hG : IsGraph G) {dx dy : Option (Expr α)} (hdx : ∀ e ∈ dx, e.SystemsOf G)
    (hdy : ∀ e ∈ dy, e.SystemsOf G) :
    (op.tangent (.binary i op x y) x y dx dy).Returns fun o => ∀ e ∈ o, e.SystemsOf G := by
  have hx := Expr.systemsOf_of_mem hG (hG.closed _ he x (by simp [Expr.operands]))
  have hy := Expr.systemsOf_of_mem hG (hG.closed _ he y (by simp [Expr.operands]))
  cases op with
  | add => exact returns_addOption_systems hdx hdy
  | matmul => exact Expr.returns_productTangent_systems (by simp) hx hy hdx hdy
  | kron => exact Expr.returns_productTangent_systems (by simp) hx hy hdx hdy
  | kronContractLeft => exact Expr.returns_productTangent_systems (by simp) hx hy hdx hdy
  | kronContractRight => exact Expr.returns_productTangent_systems (by simp) hx hy hdx hdy
  | solve =>
    have hresult := Expr.systemsOf_of_mem hG he
    refine returns_bind (returns_mapOption_systems hdx fun d hd => ?_) fun o ho => ?_
    · exact returns_bind (returns_binary_systems (by simp) hd hresult) fun p hp =>
        returns_unary_systems _ hp
    · refine returns_bind (returns_addOption_systems hdy ho) fun p hp => ?_
      exact returns_mapOption_systems hp fun d hd => returns_solve_systems (.inl ⟨i, y, he⟩) hx hd
  | assertion message => exact returns_pure hdx

/-- All systems below the nodes that the map holds are those of the graph. -/
def TableSystems (G : Set (Expr α)) (t : Std.HashMap Nat (Expr α)) : Prop :=
  ∀ i : Nat, ∀ e ∈ t[i]?, e.SystemsOf G

theorem tableSystems_empty : TableSystems G ∅ := fun i e he => by
  rw [Std.HashMap.getElem?_empty] at he
  cases he

theorem TableSystems.insert {t : Std.HashMap Nat (Expr α)} (h : TableSystems G t) (i : Nat) {e : Expr α}
    (he : e.SystemsOf G) : TableSystems G (t.insert i e) := by
  intro j d hd
  rw [Std.HashMap.getElem?_insert] at hd
  split at hd
  · cases hd
    exact he
  · exact h j d hd

theorem Tangents.returns_step_systems (hG : IsGraph G) {t : Tangents α} (ht : TableSystems G t)
    {e : Expr α} (he : e ∈ G) : (t.step e).Returns (TableSystems G) := by
  have hnode : (t.ofNode e).Returns fun o => ∀ d ∈ o, d.SystemsOf G := by
    cases e with
    | symbol => exact returns_pure (by simp)
    | constant => exact returns_pure (by simp)
    | unary i op x => exact returns_mapOption_systems (ht _) fun d hd => op.returns_tangent_systems hd
    | binary i op x y => exact BinaryOp.returns_tangent_systems he hG (ht _) (ht _)
  refine returns_bind hnode fun o ho => ?_
  cases o with
  | none => exact returns_pure ht
  | some d => exact returns_pure (ht.insert e.id (ho d rfl))

/-! ## The reverse sweep -/

theorem UnaryOp.returns_adjoint_systems (op : UnaryOp α) (x : Expr α) {bar : Expr α}
    (hbar : bar.SystemsOf G) : (op.adjoint x bar).Returns (Expr.SystemsOf G) := by
  cases op with
  | reshape s => exact returns_reshape_systems hbar x.shape
  | _ => exact returns_unary_systems _ hbar

/-- All systems below both contributions are those of the graph. -/
def PairSystems (G : Set (Expr α)) (p : Expr α × Option (Expr α)) : Prop :=
  p.1.SystemsOf G ∧ ∀ e ∈ p.2, e.SystemsOf G

theorem returns_pair_systems {m m' : Build (Expr α)} (hm : m.Returns (Expr.SystemsOf G))
    (hm' : m'.Returns (Expr.SystemsOf G)) :
    Returns (do return (← m, some (← m'))) (PairSystems G) :=
  returns_bind hm fun c hc => returns_bind hm' fun d hd => returns_pure ⟨hc, by simpa using hd⟩

theorem BinaryOp.returns_adjoint_systems {op : BinaryOp} {i : Nat} (he : Expr.binary i op x y ∈ G)
    (hG : IsGraph G) {bar : Expr α} (hbar : bar.SystemsOf G) :
    (op.adjoint (.binary i op x y) x y bar).Returns (PairSystems G) := by
  have hx := Expr.systemsOf_of_mem hG (hG.closed _ he x (by simp [Expr.operands]))
  have hy := Expr.systemsOf_of_mem hG (hG.closed _ he y (by simp [Expr.operands]))
  cases op with
  | add => exact returns_pure ⟨hbar, by simpa using hbar⟩
  | matmul =>
    refine returns_bind (returns_unary_systems .transpose hy) fun yt hyt => ?_
    refine returns_bind (returns_binary_systems (by simp) hbar hyt) fun c hc => ?_
    refine returns_bind (returns_unary_systems .transpose hx) fun xt hxt => ?_
    refine returns_bind (returns_binary_systems (by simp) hxt hbar) fun d hd => ?_
    exact returns_pure ⟨hc, by simpa using hd⟩
  | kron =>
    exact returns_pair_systems (returns_binary_systems (by simp) hbar hy)
      (returns_binary_systems (by simp) hbar hx)
  | kronContractLeft =>
    exact returns_pair_systems (returns_binary_systems (by simp) hbar hy)
      (returns_binary_systems (by simp) hx hbar)
  | kronContractRight =>
    exact returns_pair_systems (returns_binary_systems (by simp) hy hbar)
      (returns_binary_systems (by simp) hx hbar)
  | solve =>
    have hresult := Expr.systemsOf_of_mem hG he
    refine returns_bind (returns_transpose_systems hx) fun xt hxt => ?_
    obtain ⟨hxt, j, hj⟩ := hxt
    refine returns_bind (returns_solve_systems (.inr ⟨j, x, hj, i, y, he⟩) hxt hbar) fun yBar hyBar => ?_
    refine returns_bind (returns_unary_systems .transpose hresult) fun rt hrt => ?_
    refine returns_bind (returns_binary_systems (by simp) hyBar hrt) fun c hc => ?_
    refine returns_bind (returns_unary_systems .neg hc) fun d hd => ?_
    exact returns_pure ⟨hd, by simpa using hyBar⟩
  | assertion message => exact returns_pure ⟨hbar, by simp⟩

namespace Adjoints

variable {t : Adjoints α}

theorem returns_accumulate_systems (ht : TableSystems G t) (e : Expr α) {c : Expr α}
    (hc : c.SystemsOf G) : (t.accumulate e c).Returns (TableSystems G) := by
  cases h : t[e.id]? with
  | none =>
    rw [accumulate_of_none h]
    exact returns_pure (ht.insert e.id hc)
  | some bar =>
    rw [accumulate_of_some h]
    refine returns_bind (returns_binary_systems (show BinaryOp.add ≠ .solve by simp) (ht _ bar h) hc) fun d hd => ?_
    exact returns_pure (ht.insert e.id hd)

theorem returns_step_systems (hG : IsGraph G) (ht : TableSystems G t) {e : Expr α} (he : e ∈ G) :
    (t.step e).Returns (TableSystems G) := by
  unfold step
  cases h : t[e.id]? with
  | none => exact returns_pure ht
  | some bar =>
    have hbar := ht _ bar h
    cases e with
    | symbol => exact returns_pure ht
    | constant => exact returns_pure ht
    | unary i op x =>
      exact returns_bind (op.returns_adjoint_systems x hbar) fun c hc => returns_accumulate_systems ht x hc
    | binary i op x y =>
      refine returns_bind (BinaryOp.returns_adjoint_systems he hG hbar) fun p hp => ?_
      obtain ⟨c, d⟩ := p
      refine returns_bind (returns_accumulate_systems ht x hp.1) fun t' ht' => ?_
      cases d with
      | none => exact returns_pure ht'
      | some d => exact returns_accumulate_systems ht' y (hp.2 d rfl)

end Adjoints

/-! ## Directions -/

theorem returns_results_systems [Zero α] {t : Std.HashMap Nat (Expr α)} (ht : TableSystems G t)
    (tag : String) (targets : List (String × Expr α)) :
    Returns (targets.mapM fun p => return (tag ++ p.1, ← Func.orZeros p.2.shape t[p.2.id]?))
      fun rs => ∀ p ∈ rs, p.2.SystemsOf G := by
  have hresult (p : String × Expr α) :
      Returns (do return (tag ++ p.1, ← Func.orZeros p.2.shape t[p.2.id]?)) (fun r => r.2.SystemsOf G) :=
    returns_bind (returns_orZeros_systems (ht _) p.2.shape) fun d hd => returns_pure hd
  refine (returns_mapM fun p _ => hresult p).imp fun rs hrs p hp => ?_
  obtain ⟨_, -, h⟩ := Except.forall₂_exists_right hrs.flip p hp
  exact h

end Nodes

namespace Func

variable {f : Func α} {n : Nat}

theorem systemsOf_of_seed {tag : String} {targets seeds : List (String × Expr α)} {G : Set (Expr α)}
    (h : List.Forall₂ (IsSeed tag) targets seeds) : ∀ p ∈ seeds, p.2.SystemsOf G := by
  intro p hp
  obtain ⟨_, -, hseed⟩ := Except.forall₂_exists_right h.flip p hp
  exact Expr.systemsOf_of_isSymbol hseed.symbol

/-- All systems below what a direction adds are those of the function. -/
def AddedSystems (f : Func α) (r : Added α) : Prop :=
  (∀ p ∈ r.1, p.2.SystemsOf f.nodes) ∧ ∀ p ∈ r.2, p.2.SystemsOf f.nodes

variable [Scalar α]

theorem returns_forwardDirection_systems (hf : f.NumberedBelow n) (direction : Nat) :
    (f.forwardDirection (Expr.topologicalOrder (f.outputs.map (·.2))) direction).Returns
      f.AddedSystems := by
  refine returns_bind (returns_newSeeds _ _) fun seeds hseeds => ?_
  have hseeds' := systemsOf_of_seed (G := f.nodes) hseeds
  have hstart : TableSystems f.nodes (f.startTangents seeds) := by
    unfold startTangents
    refine List.foldlRecOn _ _ tableSystems_empty fun t ht p hp => ?_
    exact ht.insert _ (hseeds' _ (List.of_mem_zip hp).2)
  refine returns_bind (returns_foldlM (fun e he t ht =>
    Tangents.returns_step_systems hf.graph ht (hf.order_mem_nodes e he)) hstart) fun t ht => ?_
  refine returns_bind (returns_results_systems ht _ f.outputs) fun rs hrs => ?_
  exact returns_pure ⟨hseeds', hrs⟩

theorem returns_reverseDirection_systems (hf : f.NumberedBelow n) (direction : Nat) :
    (f.reverseDirection (Expr.topologicalOrder (f.outputs.map (·.2))) direction).Returns
      f.AddedSystems := by
  refine returns_bind (returns_newSeeds _ _) fun seeds hseeds => ?_
  have hseeds' := systemsOf_of_seed (G := f.nodes) hseeds
  have hstart : (f.startAdjoints seeds).Returns (TableSystems f.nodes) :=
    returns_foldlM (fun p hp t ht => Adjoints.returns_accumulate_systems ht p.1.2
      (hseeds' _ (List.of_mem_zip hp).2)) tableSystems_empty
  refine returns_bind (m := f.startAdjoints seeds) hstart fun start hstart => ?_
  refine returns_bind (returns_foldlM (fun e he t ht => Adjoints.returns_step_systems hf.graph ht
    (hf.order_mem_nodes e (List.mem_reverse.1 he))) hstart) fun t ht => ?_
  refine returns_bind (returns_results_systems ht _ f.inputs) fun rs hrs => ?_
  exact returns_pure ⟨hseeds', hrs⟩

omit [Scalar α] in
theorem returns_directions_systems {direction : Nat → Build (Added α)}
    (h : ∀ d, (direction d).Returns f.AddedSystems) (ds : List Nat) :
    (ds.mapM direction).Returns fun rs => ∀ r ∈ rs, f.AddedSystems r := by
  refine (returns_mapM fun d _ => h d).imp fun rs hrs r hr => ?_
  obtain ⟨_, -, h⟩ := Except.forall₂_exists_right hrs.flip r hr
  exact h

omit [Scalar α] in
theorem systemsOf_of_make (hf : f.NumberedBelow n) {rs : List (Added α)} (hrs : ∀ r ∈ rs, f.AddedSystems r)
    {name : String} {g : Func α}
    (hg : make name (f.inputs ++ rs.flatMap (·.1)) (f.outputs ++ rs.flatMap (·.2)) = .ok g) :
    ∀ e ∈ g.nodes, e.SolvesIn f.nodes := by
  obtain ⟨-, hi, ho⟩ := make_eq_ok hg
  have hroot : ∀ r ∈ g.inputs.map (·.2) ++ g.outputs.map (·.2), r.SystemsOf f.nodes := by
    intro r hr
    rw [hi, ho, ← List.map_append] at hr
    obtain ⟨p, hp, rfl⟩ := List.mem_map.1 hr
    simp only [List.mem_append, List.mem_flatMap] at hp
    rcases hp with (hp | ⟨r, hr, hp⟩) | (hp | ⟨r, hr, hp⟩)
    · exact Expr.systemsOf_of_mem hf.graph (f.input_mem_nodes hp)
    · exact (hrs r hr).1 p hp
    · exact Expr.systemsOf_of_mem hf.graph (f.output_mem_nodes hp)
    · exact (hrs r hr).2 p hp
  rintro e ⟨r, hr, hb⟩
  exact hroot r hr e hb

/-- Every system of a derivative has the matrix of a system of the function, or its transpose. -/
theorem solvesIn_differentiate (hf : f.NumberedBelow n) {mode : Mode} {k s : Nat} {g : Func α}
    (hg : (f.differentiate mode k).run.run n = (.ok g, s)) : ∀ e ∈ g.nodes, e.SolvesIn f.nodes := by
  cases mode with
  | forward =>
    have hg : (f.forward k).run.run n = (.ok g, s) := hg
    rw [run_forward] at hg
    exact systemsOf_of_make hf (returns_directions_systems (returns_forwardDirection_systems hf) _ n)
      (Prod.mk.inj hg).1
  | reverse =>
    have hg : (f.reverse k).run.run n = (.ok g, s) := hg
    rw [run_reverse] at hg
    exact systemsOf_of_make hf (returns_directions_systems (returns_reverseDirection_systems hf) _ n)
      (Prod.mk.inj hg).1

end Func

end Lyapunov
