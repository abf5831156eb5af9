/-
Forward derivatives. For each direction every input gets a seed, a symbol that stands for its rate
of change; the sweep over the nodes in topological order builds the rate of change of each node from
those of its operands. A node that no seed reaches has none, which stands for zero.
-/
import Lyapunov.Expr.Operators
import Lyapunov.Func.Basic

namespace Lyapunov

variable {α : Type}

namespace Expr

/-- The sum of two expressions that may be absent. -/
def addOption : Option (Expr α) → Option (Expr α) → Build (Option (Expr α))
  | some x, some y => return some (← x.add y)
  | some x, none => pure (some x)
  | none, y => pure y

/-- Applies a function that creates nodes to an expression that may be absent. -/
def mapOption (f : Expr α → Build (Expr α)) : Option (Expr α) → Build (Option (Expr α))
  | some x => return some (← f x)
  | none => pure none

end Expr

/-- The rate of change of an operation, given that of its operand. -/
def UnaryOp.tangent (op : UnaryOp α) (dx : Expr α) : Build (Expr α) :=
  match op with
  | .neg => dx.neg
  | .scale c => dx.scale c
  | .transpose => dx.transpose
  | .reshape s => dx.reshape s

/-- The rate of change of a product, given those of its factors. -/
def Expr.productTangent (product : Expr α → Expr α → Build (Expr α)) (x y : Expr α)
    (dx dy : Option (Expr α)) : Build (Option (Expr α)) := do
  Expr.addOption (← Expr.mapOption (product · y) dx) (← Expr.mapOption (product x) dy)

/-- The rate of change of an operation with the value `result`, given those of its operands. -/
def BinaryOp.tangent (op : BinaryOp) (result x y : Expr α) (dx dy : Option (Expr α)) :
    Build (Option (Expr α)) :=
  match op with
  | .add => Expr.addOption dx dy
  | .matmul => Expr.productTangent Expr.matmul x y dx dy
  | .kron => Expr.productTangent Expr.kron x y dx dy
  | .kronContractLeft => Expr.productTangent Expr.kronContractLeft x y dx dy
  | .kronContractRight => Expr.productTangent Expr.kronContractRight x y dx dy
  | .solve => do
    let fromMatrix ← Expr.mapOption (fun dm => do (← dm.matmul result).neg) dx
    Expr.mapOption (Expr.solve x) (← Expr.addOption dy fromMatrix)
  | .assertion _ => pure dx

/-- The rates of change found so far, by the number of the node. -/
abbrev Tangents (α : Type) := Std.HashMap Nat (Expr α)

namespace Tangents

/-- The rate of change of a node, given those of its operands. A symbol has none of its own. -/
def ofNode (t : Tangents α) : Expr α → Build (Option (Expr α))
  | .symbol .. => pure none
  | .constant .. => pure none
  | .unary _ op x => Expr.mapOption op.tangent t[x.id]?
  | e@(.binary _ op x y) => op.tangent e x y t[x.id]? t[y.id]?

/-- Adds the rate of change of a node. -/
def step (t : Tangents α) (e : Expr α) : Build (Tangents α) := do
  match ← t.ofNode e with
  | some de => return t.insert e.id de
  | none => pure t

end Tangents

namespace Func

/-- A new symbol of the same shape for each expression, under its name with `tag` in front. -/
def newSeeds (tag : String) (targets : List (String × Expr α)) : Build (List (String × Expr α)) :=
  targets.mapM fun (name, e) => return (tag ++ name, ← Expr.newSymbol (tag ++ name) e.shape)

/-- The expression if it is there, otherwise zeros of the given shape. -/
def orZeros [Zero α] (shape : Shape) : Option (Expr α) → Build (Expr α)
  | some e => pure e
  | none => Expr.zeros shape

variable [Scalar α]

/-- The seeds of one direction, and the rates of change of the outputs. -/
def forwardDirection (f : Func α) (order : List (Expr α)) (direction : Nat) :
    Build (List (String × Expr α) × List (String × Expr α)) := do
  let tag := s!"fwd{direction}_"
  let seeds ← newSeeds tag f.inputs
  let start := (f.inputs.zip seeds).foldl (fun (t : Tangents α) (x, seed) => t.insert x.2.id seed.2) ∅
  let tangents ← order.foldlM Tangents.step start
  let rates ← f.outputs.mapM fun (name, e) =>
    return (tag ++ name, ← orZeros e.shape tangents[e.id]?)
  return (seeds, rates)

/-- The function that also computes the rates of change of the outputs in `n` directions, for
additional inputs that are the rates of change of the inputs. -/
def forward (f : Func α) (n : Nat) : TryBuild (Func α) := do
  let order := Expr.topologicalOrder (f.outputs.map (·.2))
  let directions ← (List.range n).mapM (f.forwardDirection order ·)
  make s!"fwd{n}_{f.name}" (f.inputs ++ directions.flatMap (·.1))
    (f.outputs ++ directions.flatMap (·.2))

end Func

end Lyapunov
