/-
The low-rank form of the discrete Lyapunov equation, `P = A P A' + C V C'`. The factor `C` may be
absent, which stands for the identity. With an output factor `H` the answer is not `P` but the
block-diagonal matrix of the `H_k' P H_k`, where the blocks `H_k` are columns of `H`.
-/
import Lyapunov.Error
import Lyapunov.Expr.Blocks

namespace Lyapunov

/-- The shapes of the matrices, and the numbers of columns of the blocks of `H`. -/
structure LowRankDle where
  a : Shape
  v : Shape
  c : Option Shape := none
  h : Option Shape := none
  hBlocks : List Nat := []
deriving DecidableEq

/-- The expressions for the matrices, and the numbers of columns of the blocks of `H`. -/
structure LowRankInputs (α : Type) where
  a : Expr α
  v : Expr α
  c : Option (Expr α) := none
  h : Option (Expr α) := none
  hBlocks : List Nat := []

namespace LowRankDle

/-- The numbers of columns of the blocks of `H`; without a list of them `H` is a single block. -/
def blockWidths (e : LowRankDle) : List Nat :=
  match e.h with
  | none => []
  | some h => if e.hBlocks.isEmpty then [h.cols] else e.hBlocks

/-- Refuses shapes for which the equation makes no sense. -/
def validate (e : LowRankDle) : Except Error Unit := do
  e.a.require e.a.isSquare .squareA
  let n := e.a.rows
  match e.c with
  | none => e.v.require (e.v == .square n) (.squareV n)
  | some c =>
    c.require (c.rows == n) (.rowsOfC n)
    e.v.require (e.v == .square c.cols) (.squareV c.cols)
  match e.h with
  | none => pure ()
  | some h =>
    h.require (h.rows == n) (.rowsOfH n)
    let widths := e.blockWidths
    h.require (!widths.contains 0 && widths.foldl Nat.add 0 == h.cols) (.blocksOfH widths)

/-- The shape of the answer. -/
def outputShape (e : LowRankDle) : Shape :=
  match e.h with
  | none => e.a
  | some h => .square h.cols

/-- New symbols for the data, under the names of the inputs. -/
def declare {α : Type} (e : LowRankDle) : Build (LowRankInputs α × List (String × Expr α)) := do
  let a ← Expr.newSymbol "A" e.a
  let v ← Expr.newSymbol "V" e.v
  let c ← e.c.mapM (Expr.newSymbol "C")
  let h ← e.h.mapM (Expr.newSymbol "H")
  return (⟨a, v, c, h, e.blockWidths⟩,
    [("a", a), ("v", v)] ++ c.toList.map ("c", ·) ++ h.toList.map ("h", ·))

end LowRankDle

namespace LowRankInputs

variable {α : Type} [Zero α] [One α]

/-- The blocks of `H`, none without `H`. -/
def hSplit (i : LowRankInputs α) : Build (List (Expr α)) :=
  match i.h with
  | none => pure []
  | some h => h.horzsplit i.hBlocks

/-- The answer for a solution `p` of the equation: the block-diagonal matrix of the `H_k' p H_k`,
or `p` itself without `H`. -/
def project (i : LowRankInputs α) (p : Expr α) : Build (Expr α) :=
  match i.h with
  | none => pure p
  | some _ => do Expr.diagcat (← (← i.hSplit).mapM fun hk => do Expr.congruence (← hk.transpose) p)

end LowRankInputs

end Lyapunov
