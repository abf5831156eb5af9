/-
Reverse derivatives. For each direction every output gets a seed, a symbol that stands for its
weight; the sweep over the nodes in reverse topological order hands the weight of each node, its
adjoint, down to its operands, where the contributions of all uses are added.
-/
import Lyapunov.Func.Forward

namespace Lyapunov

variable {α : Type}

/-- What the adjoint of an operation contributes to that of its operand. -/
def UnaryOp.adjoint (op : UnaryOp α) (x bar : Expr α) : Build (Expr α) :=
  match op with
  | .neg => bar.neg
  | .scale c => bar.scale c
  | .transpose => bar.transpose
  | .reshape _ => bar.reshape x.shape

/-- What the adjoint of an operation with the value `result` contributes to those of its operands;
the second operand of an assertion gets nothing. -/
def BinaryOp.adjoint (op : BinaryOp) (result x y bar : Expr α) :
    Build (Expr α × Option (Expr α)) :=
  match op with
  | .add => pure (bar, some bar)
  | .matmul => do
    let xBar ← bar.matmul (← y.transpose)
    let yBar ← (← x.transpose).matmul bar
    return (xBar, some yBar)
  | .kron => return (← bar.kronContractLeft y, some (← bar.kronContractRight x))
  | .kronContractLeft => return (← bar.kron y, some (← x.kronContractRight bar))
  | .kronContractRight => return (← y.kron bar, some (← x.kronContractLeft bar))
  | .solve => do
    let yBar ← (← x.transpose).solve bar
    let xBar ← (← yBar.matmul (← result.transpose)).neg
    return (xBar, some yBar)
  | .assertion _ => pure (bar, none)

/-- The adjoints found so far, by the number of the node. -/
abbrev Adjoints (α : Type) := Std.HashMap Nat (Expr α)

namespace Adjoints

/-- Adds a contribution to the adjoint of a node. -/
def accumulate (t : Adjoints α) (e contribution : Expr α) : Build (Adjoints α) := do
  match t[e.id]? with
  | some bar => return t.insert e.id (← bar.add contribution)
  | none => return t.insert e.id contribution

/-- Hands the adjoint of a node down to its operands. -/
def step (t : Adjoints α) (e : Expr α) : Build (Adjoints α) := do
  match t[e.id]? with
  | none => return t
  | some bar =>
    match e with
    | .symbol .. => return t
    | .constant .. => return t
    | .unary _ op x => t.accumulate x (← op.adjoint x bar)
    | .binary _ op x y =>
      let (xBar, yBar) ← op.adjoint e x y bar
      let t ← t.accumulate x xBar
      match yBar with
      | some yBar => t.accumulate y yBar
      | none => return t

end Adjoints

namespace Func

variable [Scalar α]

/-- The seeds of one direction, and the adjoints of the inputs. -/
def reverseDirection (f : Func α) (order : List (Expr α)) (direction : Nat) :
    Build (List (String × Expr α) × List (String × Expr α)) := do
  let tag := s!"adj{direction}_"
  let seeds ← newSeeds tag f.outputs
  let start ← (f.outputs.zip seeds).foldlM
    (fun (t : Adjoints α) (y, seed) => t.accumulate y.2 seed.2) ∅
  let adjoints ← order.reverse.foldlM Adjoints.step start
  let gradients ← f.inputs.mapM fun (name, e) =>
    return (tag ++ name, ← orZeros e.shape adjoints[e.id]?)
  return (seeds, gradients)

/-- The function that also computes the adjoints of the inputs in `n` directions, for additional
inputs that are the weights of the outputs. -/
def reverse (f : Func α) (n : Nat) : TryBuild (Func α) := do
  let order := Expr.topologicalOrder (f.outputs.map (·.2))
  let directions ← (List.range n).mapM (f.reverseDirection order ·)
  make s!"adj{n}_{f.name}" (f.inputs ++ directions.flatMap (·.1))
    (f.outputs ++ directions.flatMap (·.2))

end Func

end Lyapunov
