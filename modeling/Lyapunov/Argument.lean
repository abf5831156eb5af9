/-
What a function is called with: a number, a dense matrix or a sparse one. All three have a shape
and a dense form, which is what is computed with.
-/
import Lyapunov.Sparse

namespace Lyapunov

inductive Argument (α : Type) where
  | scalar (value : α)
  | dense (value : Dense α)
  | sparse (value : Sparse α)

namespace Argument

variable {α : Type}

def shape : Argument α → Shape
  | .scalar _ => .scalar
  | .dense m => m.shape
  | .sparse m => m.shape

def toDense [Zero α] [Add α] : Argument α → Dense α
  | .scalar x => .ofScalar x
  | .dense m => m
  | .sparse m => m.toDense

/-- The number in a scalar or a dense 1x1 matrix; a sparse matrix is never read as a number. -/
def asScalar? [Zero α] : Argument α → Option α
  | .scalar x => some x
  | .dense m => if m.shape.isScalar then some (m.get 0 0) else none
  | .sparse _ => none

theorem shape_toDense [Zero α] [Add α] (x : Argument α) : x.toDense.shape = x.shape := by
  cases x <;> rfl

end Argument

end Lyapunov
