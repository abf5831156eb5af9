/-
Shapes of matrices: a number of rows and a number of columns, with the shapes of transposes and
products and the two texts under which a shape is printed.
-/
namespace Lyapunov

/-- The numbers of rows and columns of a matrix. -/
structure Shape where
  rows : Nat
  cols : Nat
deriving DecidableEq

namespace Shape

/-- The shape of a single number. -/
def scalar : Shape := ⟨1, 1⟩

/-- The shape of a column of `n` numbers. -/
def vector (n : Nat) : Shape := ⟨n, 1⟩

/-- The shape of a matrix with as many columns as rows. -/
def square (n : Nat) : Shape := ⟨n, n⟩

/-- The number of entries. -/
def size (s : Shape) : Nat := s.rows * s.cols

def isScalar (s : Shape) : Bool := s == scalar

def isSquare (s : Shape) : Bool := s.rows == s.cols

/-- The shape of the transpose. -/
def transpose (s : Shape) : Shape := ⟨s.cols, s.rows⟩

/-- The shape of a product, defined when the inner dimensions agree. -/
def matmul? (s t : Shape) : Option Shape :=
  if s.cols = t.rows then some ⟨s.rows, t.cols⟩ else none

/-- A shape is printed as in `2x3`. -/
instance : ToString Shape := ⟨fun s => s!"{s.rows}x{s.cols}"⟩

/-- The text that names the type as well, as in `Shape(2, 3)`. -/
def debug (s : Shape) : String := s!"Shape({s.rows}, {s.cols})"

@[simp] theorem transpose_transpose (s : Shape) : s.transpose.transpose = s := rfl

@[simp] theorem size_transpose (s : Shape) : s.transpose.size = s.size := Nat.mul_comm _ _

end Shape

end Lyapunov
