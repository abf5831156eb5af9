/-
The identity of nodes over whole runs of a program. A program makes calls one after the other: it creates
symbols and constants, applies operations, and makes functions, derivatives and solvers, with arguments
that earlier calls have returned. The nodes that it can reach grow with every call as `Creation` says. So
a number stands for one node for good, operands have smaller numbers than the nodes they belong to, and
later nodes have larger numbers, also after calls that failed. The functions and solvers that calls return
are made of such nodes, which is all that the theorems about them ask for.
-/
import Mathlib.Logic.Relation
import Lyapunov.Proofs.Session.Operation
import Lyapunov.Proofs.Solver.Creation

namespace Lyapunov

open Build

variable {α : Type}

/-! ## What calls return -/

/-- Expressions, functions, and solvers of the two classes. -/
structure Handles (α : Type) where
  exprs : List (Expr α) := []
  functions : List (Func α) := []
  dleSolvers : List (Solver Dle DleInputs α) := []
  lowRankSolvers : List (Solver LowRankDle LowRankInputs α) := []

namespace Handles

/-- The expressions, and those of the inputs and outputs of functions and solvers. -/
def roots (h : Handles α) : List (Expr α) :=
  h.exprs ++ h.functions.flatMap (·.roots) ++ h.dleSolvers.flatMap (·.function.roots) ++
    h.lowRankSolvers.flatMap (·.function.roots)

theorem mem_roots {h : Handles α} {e : Expr α} : e ∈ h.roots ↔
    e ∈ h.exprs ∨ (∃ f ∈ h.functions, e ∈ f.roots) ∨ (∃ solver ∈ h.dleSolvers, e ∈ solver.function.roots) ∨
      ∃ solver ∈ h.lowRankSolvers, e ∈ solver.function.roots := by
  simp only [roots, List.mem_append, List.mem_flatMap, or_assoc]

def append (h k : Handles α) : Handles α where
  exprs := h.exprs ++ k.exprs
  functions := h.functions ++ k.functions
  dleSolvers := h.dleSolvers ++ k.dleSolvers
  lowRankSolvers := h.lowRankSolvers ++ k.lowRankSolvers

theorem mem_roots_append {h k : Handles α} {e : Expr α} :
    e ∈ (h.append k).roots ↔ e ∈ h.roots ∨ e ∈ k.roots := by
  simp only [roots, append, List.mem_append, List.flatMap_append]
  tauto

/-- All roots exist in `S`. -/
def In (S : Set (Expr α)) (h : Handles α) : Prop := ∀ e ∈ h.roots, e ∈ S

theorem in_exprs {S : Set (Expr α)} {es : List (Expr α)} (h : ∀ e ∈ es, e ∈ S) :
    In S { exprs := es } := by simpa [In, roots] using h

theorem in_function {S : Set (Expr α)} {f : Func α} (h : ∀ e ∈ f.roots, e ∈ S) :
    In S { functions := [f] } := by simpa [In, roots] using h

theorem in_dleSolver {S : Set (Expr α)} {solver : Solver Dle DleInputs α}
    (h : ∀ e ∈ solver.function.roots, e ∈ S) : In S { dleSolvers := [solver] } := by
  simpa [In, roots] using h

theorem in_lowRankSolver {S : Set (Expr α)} {solver : Solver LowRankDle LowRankInputs α}
    (h : ∀ e ∈ solver.function.roots, e ∈ S) : In S { lowRankSolvers := [solver] } := by
  simpa [In, roots] using h

end Handles

/-! ## Calls -/

/-- What the method of the given name builds; nothing without such a method. -/
def Plugin.buildNamed {Inputs : Type} (plugins : List (Plugin Inputs α)) (name : String) (inputs : Inputs)
    (options : Options) : TryBuild (List (Expr α)) :=
  match lookup? plugins name with
  | none => pure []
  | some plugin => return [← plugin.build inputs options]

theorem Plugin.creates_buildNamed {Inputs : Type} {operands : Inputs → List (Expr α)}
    {plugins : List (Plugin Inputs α)} (hplugins : ∀ p ∈ plugins, p.CreatesNode operands) (name : String)
    {S : Set (Expr α)} {inputs : Inputs} (hinputs : ∀ e ∈ operands inputs, e ∈ S) (options : Options) :
    TryBuild.Creates S (buildNamed plugins name inputs options) fun S' es => ∀ e ∈ es, e ∈ S' := by
  unfold buildNamed
  split
  · exact TryBuild.creates_pure (by simp)
  · rename_i plugin hplugin
    have hnew := hplugins plugin (List.mem_of_find?_eq_some hplugin)
    exact (hnew ∅ S inputs options (Set.empty_subset S) hinputs).map fun _ _ _ he =>
      List.forall_mem_singleton.2 he.1

/-- A call of the library that creates nodes, with its arguments. -/
inductive Call (α : Type) where
  /-- A number on its own, for no node. -/
  | number
  | symbol (name : String) (shape : Shape)
  | constant (value : Dense α)
  | unary (op : UnaryOp α) (x : Expr α)
  | binary (op : BinaryOp) (x y : Expr α)
  | operation (op : Operation α)
  | hSplit (inputs : LowRankInputs α)
  | function (name : String) (inputs outputs : List (String × Expr α))
  | forward (f : Func α) (n : Nat)
  | reverse (f : Func α) (n : Nat)
  | declareDle (problem : Dle)
  | declareLowRank (problem : LowRankDle)
  | pluginDle (plugin : String) (inputs : DleInputs α) (options : Options)
  | pluginLowRank (plugin : String) (inputs : LowRankInputs α) (options : Options)
  | dleSolver (name plugin : String) (problem : Dle) (options : Options)
  | lowRankSolver (name plugin : String) (problem : LowRankDle) (options : Options)
  | rebuildDle (solver : Solver Dle DleInputs α)
  | rebuildLowRank (solver : Solver LowRankDle LowRankInputs α)

namespace Call

/-- The expressions among the arguments that the call uses. -/
def operands : Call α → List (Expr α)
  | .unary _ x => [x]
  | .binary _ x y => [x, y]
  | .operation op => op.operands
  | .hSplit inputs => inputs.operands
  | .function _ inputs outputs => inputs.map (·.2) ++ outputs.map (·.2)
  | .forward f _ => f.roots
  | .reverse f _ => f.roots
  | .pluginDle _ inputs _ => inputs.operands
  | .pluginLowRank _ inputs _ => inputs.operands
  | _ => []

variable [Scalar α]

/-- Makes the call. -/
def run : Call α → TryBuild (Handles α)
  | .number => do
    let _ ← Build.fresh
    return {}
  | .symbol name shape => return { exprs := ← single (Expr.newSymbol name shape) }
  | .constant value => return { exprs := ← single (Expr.newConstant value) }
  | .unary op x => return { exprs := ← single (Expr.newUnary op x) }
  | .binary op x y => return { exprs := ← single (Expr.newBinary op x y) }
  | .operation op => return { exprs := ← op.build }
  | .hSplit inputs => return { exprs := ← inputs.hSplit }
  | .function name inputs outputs => return { functions := [← Func.make name inputs outputs] }
  | .forward f n => return { functions := [← f.forward n] }
  | .reverse f n => return { functions := [← f.reverse n] }
  | .declareDle problem => return { exprs := (← problem.declare).2.map (·.2) }
  | .declareLowRank problem => return { exprs := (← problem.declare).2.map (·.2) }
  | .pluginDle plugin inputs options =>
    return { exprs := ← Plugin.buildNamed (Dle.plugins α) plugin inputs options }
  | .pluginLowRank plugin inputs options =>
    return { exprs := ← Plugin.buildNamed (LowRankDle.plugins α) plugin inputs options }
  | .dleSolver name plugin problem options =>
    return { dleSolvers := [← Solver.make name plugin problem options] }
  | .lowRankSolver name plugin problem options =>
    return { lowRankSolvers := [← Solver.make name plugin problem options] }
  | .rebuildDle solver => return { dleSolvers := [← solver.rebuild] }
  | .rebuildLowRank solver => return { lowRankSolvers := [← solver.rebuild] }

variable {S : Set (Expr α)}

omit [Scalar α] in
theorem creates_exprs {m : TryBuild (List (Expr α))}
    (h : TryBuild.Creates S m fun S' es => ∀ e ∈ es, e ∈ S') :
    TryBuild.Creates S (do return { exprs := ← m }) Handles.In :=
  h.map fun _ _ _ hes => Handles.in_exprs hes

omit [Scalar α] in
theorem creates_built {m : Build (List (Expr α))} (h : CreatesNodes ∅ S m) :
    TryBuild.Creates S (do return { exprs := ← m }) Handles.In :=
  creates_exprs (TryBuild.creates_liftBuild (h.imp fun _ _ _ hes e he => (hes e he).1))

omit [Scalar α] in
/-- The roots of a derivative are those of the function, which exist, and new ones. -/
theorem creates_derivative {f : Func α} {m : TryBuild (Func α)} (hf : ∀ e ∈ f.roots, e ∈ S)
    (h : TryBuild.Creates S m fun S' g => ∀ e ∈ g.roots, e ∈ f.roots ∨ e ∈ S' \ ∅) :
    TryBuild.Creates S (do return { functions := [← m] }) Handles.In :=
  h.map fun _ _ hS hg => Handles.in_function fun e he => (hg e he).elim (fun he => hS (hf e he)) And.left

omit [Scalar α] in
/-- The named inputs of a declaration are the symbols for the data. -/
theorem creates_declared {Inputs : Type} {operands : Inputs → List (Expr α)}
    {m : Build (Inputs × List (String × Expr α))} (h : Creates S m (NewDeclared operands ∅)) :
    TryBuild.Creates S (do return { exprs := (← m).2.map (·.2) }) Handles.In :=
  (TryBuild.creates_liftBuild h).map fun _ _ _ hdeclared => Handles.in_exprs fun e he =>
    (hdeclared.2 e (hdeclared.1 ▸ he)).1

/-- A call whose operands exist returns what exists afterwards. -/
theorem creates_run (c : Call α) (hS : IsGraph S) (hops : ∀ e ∈ c.operands, e ∈ S) :
    TryBuild.Creates S c.run Handles.In := by
  have h₀ : ∅ ⊆ S := Set.empty_subset S
  cases c with
  | number =>
    exact TryBuild.creates_bind (TryBuild.creates_liftBuild creates_fresh) fun S' _ _ _ =>
      TryBuild.creates_pure (Handles.in_exprs (by simp))
  | symbol name shape => exact creates_built (createsNodes_single (createsNode_symbol h₀ name shape))
  | constant value => exact creates_built (createsNodes_single (createsNode_constant h₀ value))
  | unary op x =>
    have hx : x ∈ S := hops x List.mem_cons_self
    exact creates_built (createsNodes_single (createsNode_unary h₀ hx op))
  | binary op x y =>
    have hx : x ∈ S := hops x List.mem_cons_self
    have hy : y ∈ S := hops y (List.mem_cons_of_mem x List.mem_cons_self)
    exact creates_built (createsNodes_single (createsNode_binary h₀ hx hy op))
  | operation op => exact creates_built (op.createsNodes_build h₀ hops fun x _ => Set.notMem_empty x)
  | hSplit inputs => exact creates_built (LowRankInputs.createsNodes_hSplit h₀ hops)
  | function name inputs outputs =>
    refine TryBuild.creates_check _ fun f hf => TryBuild.creates_pure (Handles.in_function ?_)
    obtain ⟨-, rfl, rfl⟩ := Func.make_eq_ok hf
    exact hops
  | forward f n =>
    have hdag := hS.isDag fun r hr => hops r (List.mem_append_right _ hr)
    exact creates_derivative hops (Func.creates_forward h₀ hdag (fun _ he => hS.reachable hops he) n)
  | reverse f n =>
    have hdag := hS.isDag fun r hr => hops r (List.mem_append_right _ hr)
    exact creates_derivative hops (Func.creates_reverse h₀ hdag (fun _ he => hS.reachable hops he) n)
  | declareDle problem => exact creates_declared (problem.creates_declare h₀)
  | declareLowRank problem => exact creates_declared (problem.creates_declare h₀)
  | pluginDle plugin inputs options =>
    exact creates_exprs (Plugin.creates_buildNamed Dle.createsNode_plugins plugin hops options)
  | pluginLowRank plugin inputs options =>
    exact creates_exprs (Plugin.creates_buildNamed LowRankDle.createsNode_plugins plugin hops options)
  | dleSolver | rebuildDle =>
    exact (Solver.creates_make Dle.createsNodes h₀ _ _ _ _).map fun _ _ _ h =>
      Handles.in_dleSolver fun e he => (h e he).1
  | lowRankSolver | rebuildLowRank =>
    exact (Solver.creates_make LowRankDle.createsNodes h₀ _ _ _ _).map fun _ _ _ h =>
      Handles.in_lowRankSolver fun e he => (h e he).1

end Call

/-! ## Programs -/

/-- The state of a program: the number of the next node, and what its calls have returned. -/
structure Session (α : Type) where
  next : Nat := 0
  handles : Handles α := {}

namespace Session

/-- The nodes that the program can reach. -/
def nodes (s : Session α) : Set (Expr α) := {e | Expr.Reachable s.handles.roots e}

/-- The node with the number `i` has the node with the number `j` as an operand. -/
def Uses (s : Session α) (i j : Nat) : Prop := ∃ e ∈ s.nodes, e.id = i ∧ ∃ x ∈ e.operands, x.id = j

theorem nodes_empty : ({} : Session α).nodes = ∅ :=
  Set.eq_empty_of_forall_notMem fun _ ⟨_, hr, _⟩ => by cases hr

theorem nodes_closed (s : Session α) : ∀ e ∈ s.nodes, ∀ x ∈ e.operands, x ∈ s.nodes :=
  fun _ he _ hx => he.below (Expr.below_of_operand hx)

variable [Scalar α]

/-- Makes a call. A call that fails returns nothing, and the numbers that it took are gone. -/
def perform (s : Session α) (c : Call α) : Session α :=
  match c.run.run.run s.next with
  | (.ok h, next) => ⟨next, s.handles.append h⟩
  | (.error _, next) => ⟨next, s.handles⟩

/-- The calls lead from one state to another, each with arguments that the program has at the time. -/
inductive Leads : Session α → List (Call α) → Session α → Prop
  | nil (s : Session α) : Leads s [] s
  | cons {s s' : Session α} {c : Call α} {calls : List (Call α)} :
      (∀ e ∈ c.operands, e ∈ s.nodes) → Leads (s.perform c) calls s' → Leads s (c :: calls) s'

/-- One call. -/
theorem creation_perform {s : Session α} {c : Call α} (hgraph : IsGraph s.nodes)
    (hbelow : ∀ e ∈ s.nodes, e.id < s.next) (hops : ∀ e ∈ c.operands, e ∈ s.nodes) :
    Creation s.next s.nodes (s.perform c).next (s.perform c).nodes := by
  obtain ⟨S', hS', hin⟩ := c.creates_run hgraph hops s.next hbelow
  unfold perform
  rcases hrun : c.run.run.run s.next with ⟨r, next⟩
  rw [hrun] at hS' hin
  cases r with
  | error e => exact .of_le hS'.le _
  | ok h =>
    have hroots : ∀ e ∈ (s.handles.append h).roots, e ∈ S' := fun e he =>
      (Handles.mem_roots_append.1 he).elim (fun he => hS'.kept (.root he)) (hin h rfl e)
    refine hS'.restrict (fun e he => he.mono fun r hr => Handles.mem_roots_append.2 (.inl hr)) (fun e he => ?_)
      (nodes_closed _)
    exact (hS'.isGraph hgraph hbelow).reachable hroots he

/-- All nodes of the program were created by its calls. -/
def Created (s : Session α) : Prop := Creation 0 ∅ s.next s.nodes

omit [Scalar α] in
theorem Created.isGraph {s : Session α} (h : s.Created) : IsGraph s.nodes :=
  Creation.isGraph h ⟨fun _ he => he.elim, fun _ hx => hx.elim⟩ fun _ he => he.elim

omit [Scalar α] in
theorem Created.below {s : Session α} (h : s.Created) : ∀ e ∈ s.nodes, e.id < s.next :=
  fun _ he => Creation.below h (fun _ he => he.elim) he

theorem Leads.creation {s s' : Session α} {calls : List (Call α)} (h : Leads s calls s') (hs : s.Created) :
    Creation s.next s.nodes s'.next s'.nodes := by
  induction h with
  | nil s => exact .of_le le_rfl _
  | cons hops _ ih =>
    have hstep := creation_perform hs.isGraph hs.below hops
    exact hstep.trans (ih (Creation.trans hs hstep))

theorem Leads.created {s : Session α} {calls : List (Call α)} (h : Leads {} calls s) : s.Created := by
  have hempty : ({} : Session α).Created := by
    unfold Created
    rw [nodes_empty]
    exact .of_le le_rfl ∅
  exact Creation.trans hempty (h.creation hempty)

omit [Scalar α] in
theorem Created.isDag {s : Session α} (h : s.Created) {roots : List (Expr α)}
    (hroots : ∀ r ∈ roots, r ∈ s.nodes) : IsDag roots := h.isGraph.isDag hroots

omit [Scalar α] in
/-- A function whose roots the program can reach is made of nodes of the program. -/
theorem Created.numberedBelow {s : Session α} (h : s.Created) {f : Func α} (hf : ∀ e ∈ f.roots, e ∈ s.nodes) :
    f.NumberedBelow s.next where
  graph := h.isDag hf
  below _ he := h.below _ (h.isGraph.reachable hf he)

/-- In every function and solver that calls have returned each number stands for one node and is below that of
the next one. -/
theorem Leads.numberedBelow {s : Session α} {calls : List (Call α)} (h : Leads {} calls s) :
    (∀ f ∈ s.handles.functions, f.NumberedBelow s.next) ∧
    (∀ solver ∈ s.handles.dleSolvers, solver.function.NumberedBelow s.next) ∧
    ∀ solver ∈ s.handles.lowRankSolvers, solver.function.NumberedBelow s.next := by
  have hs := h.created
  have hroots (f : Func α) (hf : ∀ e ∈ f.roots, e ∈ s.handles.roots) : f.NumberedBelow s.next :=
    hs.numberedBelow fun e he => .root (hf e he)
  refine ⟨fun f hf => hroots f fun e he => ?_, fun solver hsolver => hroots solver.function fun e he => ?_,
    fun solver hsolver => hroots solver.function fun e he => ?_⟩
  · exact Handles.mem_roots.2 (.inr (.inl ⟨f, hf, he⟩))
  · exact Handles.mem_roots.2 (.inr (.inr (.inl ⟨solver, hsolver, he⟩)))
  · exact Handles.mem_roots.2 (.inr (.inr (.inr ⟨solver, hsolver, he⟩)))

omit [Scalar α] in
/-- The numbers of operands decrease along every path. -/
theorem Created.uses_lt {s : Session α} (h : s.Created) {i j : Nat} (hij : Relation.TransGen s.Uses i j) :
    j < i := by
  have hstep {i j : Nat} (hij : s.Uses i j) : j < i := by
    obtain ⟨e, he, rfl, x, hx, rfl⟩ := hij
    exact (h.operand e ⟨he, Set.notMem_empty e⟩ x hx).2
  induction hij with
  | single h => exact hstep h
  | tail _ h ih => exact (hstep h).trans ih

/-- An operation returns a node that exists exactly where it gives back its argument, and then it
creates no node. -/
theorem Created.results {s : Session α} (hs : s.Created) {op : Operation α}
    (hops : ∀ e ∈ op.operands, e ∈ s.nodes) :
    (∀ e ∈ (op.build.run s.next).1, e ∈ s.nodes ↔ op.GivesBack e) ∧
      ∀ x, op.GivesBack x → op.build.run s.next = ([x], s.next) := by
  have hgiven (x : Expr α) (hx : op.GivesBack x) : op.build.run s.next = ([x], s.next) := by
    rw [Operation.build_of_givesBack hx]
    rfl
  refine ⟨fun e he => ⟨fun hmem => ?_, fun hback => hops e hback.mem_operands⟩, hgiven⟩
  by_cases hback : ∃ x, op.GivesBack x
  · obtain ⟨x, hx⟩ := hback
    rw [hgiven x hx] at he
    rwa [List.mem_singleton.1 he]
  · obtain ⟨S', -, hnew⟩ := op.createsNodes_build subset_rfl hops (fun x hx => (hback ⟨x, hx⟩).elim)
      s.next hs.below
    exact absurd hmem (hnew e he).2

/-- After any calls numbers identify nodes: two nodes are the same exactly when their numbers are, and
operands have smaller numbers, so that no chain of operands returns to its start. Whatever is called
later, every node stays, and its number stands for it and no other node; the nodes that come later have
larger numbers than all before. Operations return new nodes, unless they give back their argument. -/
theorem node_identity {calls : List (Call α)} {s : Session α} (h : Leads {} calls s) :
    (∀ x ∈ s.nodes, ∀ y ∈ s.nodes, (x = y ↔ x.id = y.id) ∧ (x.same y = true ↔ x = y)) ∧
    (∀ e ∈ s.nodes, ∀ x ∈ e.operands, x ∈ s.nodes ∧ x.id < e.id) ∧
    (∀ i, ¬ Relation.TransGen s.Uses i i) ∧
    (∀ (later : List (Call α)) (s' : Session α), Leads s later s' →
      (∀ x ∈ s.nodes, x ∈ s'.nodes ∧ ∀ y ∈ s'.nodes, y.id = x.id → y = x) ∧
      ∀ y ∈ s'.nodes, y ∉ s.nodes → s.next ≤ y.id ∧ ∀ x ∈ s.nodes, x.id < y.id) ∧
    ∀ op : Operation α, (∀ e ∈ op.operands, e ∈ s.nodes) →
      (∀ e ∈ (op.build.run s.next).1, e ∈ s.nodes ↔ op.GivesBack e) ∧
      ∀ x, op.GivesBack x → op.build.run s.next = ([x], s.next) := by
  have hs := h.created
  have hiff (x : Expr α) (hx : x ∈ s.nodes) (y : Expr α) (hy : y ∈ s.nodes) : x = y ↔ x.id = y.id :=
    ⟨congrArg Expr.id, hs.isGraph.unique x hx y hy⟩
  refine ⟨fun x hx y hy => ⟨hiff x hx y hy, ?_⟩, fun e he => hs.operand e ⟨he, Set.notMem_empty e⟩,
    fun i hi => (hs.uses_lt hi).ne rfl, fun later s' hlater => ?_, fun op => hs.results⟩
  · rw [hiff x hx y hy, Expr.same, beq_iff_eq]
  · have hgrown := hlater.creation hs
    refine ⟨fun x hx => ⟨hgrown.kept hx, fun y hy => hgrown.eq_of_id_eq hs.isGraph hs.below hx hy⟩,
      fun y hy hnew => ?_⟩
    have hnext := (hgrown.number y ⟨hy, hnew⟩).1
    exact ⟨hnext, fun x hx => (hs.below x hx).trans_le hnext⟩

/-- Calls whose arguments exist at the start can be made one after the other. -/
theorem Created.leads {s : Session α} (hs : s.Created) {calls : List (Call α)}
    (h : ∀ c ∈ calls, ∀ e ∈ c.operands, e ∈ s.nodes) : Leads s calls (calls.foldl perform s) := by
  induction calls generalizing s with
  | nil => exact .nil s
  | cons c calls ih =>
    obtain ⟨hc, hcalls⟩ := List.forall_mem_cons.1 h
    have hstep := creation_perform hs.isGraph hs.below hc
    exact .cons hc (ih (Creation.trans hs hstep) fun d hd e he => hstep.kept (hcalls d hd e he))

/-- A square, and then its function with derivatives, and a solver. -/
theorem node_identity_square : ∃ (f : Func ℚ) (s s' : Session ℚ),
    Leads {} [.symbol "a" .scalar, .operation (.matmul Func.square[0] Func.square[0])] s ∧
    Leads s [.function "f" f.inputs f.outputs, .forward f 1, .reverse f 2,
      .dleSolver "g" "simple" (.square 1) .empty] s' ∧
    (∀ x ∈ Func.square, x ∈ s'.nodes ∧ ∀ y ∈ s'.nodes, y.id = x.id → y = x) ∧
    (∀ y ∈ s'.nodes, y ∉ s.nodes → 2 ≤ y.id) ∧
    (Operation.reshape Func.square[0] .scalar).build.run s.next = ([Func.square[0]], 2) := by
  obtain ⟨f, hi, ho, -⟩ := Func.exists_square
  let s : Session ℚ := ⟨2, { exprs := Func.square }⟩
  have hmem : ∀ x ∈ Func.square, x ∈ s.nodes := fun x hx => .root (by simpa [s, Handles.roots] using hx)
  have hleads : Leads {} [.symbol "a" .scalar, .operation (.matmul Func.square[0] Func.square[0])] s := by
    refine .cons (by simp [Call.operands]) (.cons (fun e he => ?_) (.nil _))
    have he : e = Func.square[0] := by simpa [Call.operands, Operation.operands] using he
    exact .root (he ▸ List.mem_cons_self)
  have hroots : ∀ e ∈ f.roots, e ∈ s.nodes := by
    rw [Func.forall_roots, hi, ho, List.forall_mem_singleton, List.forall_mem_singleton]
    exact ⟨hmem _ (List.getElem_mem _), hmem _ (List.getElem_mem _)⟩
  obtain ⟨s', hlater⟩ : ∃ s', Leads s [.function "f" f.inputs f.outputs, .forward f 1, .reverse f 2,
      .dleSolver "g" "simple" (.square 1) .empty] s' := by
    refine ⟨_, hleads.created.leads ?_⟩
    simp only [List.forall_mem_cons]
    exact ⟨hroots, hroots, hroots, by simp [Call.operands]⟩
  obtain ⟨-, -, -, hkeeps, hresults⟩ := node_identity hleads
  obtain ⟨hkept, hnew⟩ := hkeeps _ _ hlater
  have hreshape : ∀ e ∈ (Operation.reshape Func.square[0] .scalar).operands, e ∈ s.nodes :=
    List.forall_mem_singleton.2 (hmem _ (List.getElem_mem _))
  exact ⟨f, s, s', hleads, hlater, fun x hx => hkept x (hmem x hx), fun y hy hys => (hnew y hy hys).1,
    (hresults _ hreshape).2 _ (.reshape rfl)⟩

end Session

end Lyapunov
