/-
Matrices from blocks and blocks from matrices. Both are products with selectors, constant matrices
whose columns are unit vectors.
-/
import Lyapunov.Expr.Operators

namespace Lyapunov.Expr

variable {α : Type} [Zero α] [One α]

/-- Blocks of the columns of `x`, the first one starting at `offset`. -/
def horzsplitFrom (x : Expr α) : Nat → List Nat → Build (List (Expr α))
  | _, [] => pure []
  | offset, w :: widths => do
    let block ← x.matmul (← newConstant (.selector x.shape.cols offset w))
    return block :: (← horzsplitFrom x (offset + w) widths)

/-- The columns of `x` in blocks of the given widths; columns past the end are zero. -/
def horzsplit (x : Expr α) (widths : List Nat) : Build (List (Expr α)) := x.horzsplitFrom 0 widths

/-- Each block at its place on the diagonal of a matrix of the given shape, the first one with its
corner at `row` and `col`. -/
def placeOnDiagonal (shape : Shape) : Nat → Nat → List (Expr α) → Build (List (Expr α))
  | _, _, [] => pure []
  | row, col, b :: blocks => do
    let left ← newConstant (.selector shape.rows row b.shape.rows)
    let right ← newConstant (Dense.selector shape.cols col b.shape.cols).transpose
    let placed ← mul3 left b right
    return placed :: (← placeOnDiagonal shape (row + b.shape.rows) (col + b.shape.cols) blocks)

/-- The block-diagonal matrix; a single block is returned as it is. -/
def diagcat : List (Expr α) → Build (Expr α)
  | [] => zeros ⟨0, 0⟩
  | [b] => pure b
  | b :: blocks => do
    let shape := (b :: blocks).foldl
      (fun s x => ⟨s.rows + x.shape.rows, s.cols + x.shape.cols⟩) (⟨0, 0⟩ : Shape)
    match ← placeOnDiagonal shape 0 0 (b :: blocks) with
    | [] => zeros shape
    | first :: rest => rest.foldlM add first

end Lyapunov.Expr
