/-
Linear systems by Gaussian elimination. Each step takes as pivot the first entry of largest
magnitude in the first column, exchanges its row with the first one, eliminates the column and
solves the smaller system for the remaining unknowns. A system fails only on a pivot that is zero.
-/
import Lyapunov.Dense.Basic

namespace Lyapunov.Dense

variable {α : Type} [Scalar α]

/-- The first row, among the first `n`, with an entry of largest magnitude in the first column. -/
def pivotRow (m : Dense α) : Nat → Nat
  | 0 => 0
  | n + 1 =>
    let best := pivotRow m n
    if Scalar.absLt (m.get best 0) (m.get n 0) then n else best

/-- Where row `i` of the reduced system stands in the full one, after row `pivot` and row zero
change places. -/
def remainingRow (pivot i : Nat) : Nat := if i + 1 = pivot then 0 else i + 1

/-- The solution of `m x = b` for the first `n` rows and columns of `m`, if no pivot is zero. -/
def eliminate : Nat → Dense α → Dense α → Option (Dense α)
  | 0, _, b => some (ofFn 0 b.cols fun _ _ => 0)
  | n + 1, m, b =>
    let pivot := m.pivotRow (n + 1)
    if m.get pivot 0 == 0 then
      none
    else
      let inverse := 1 / m.get pivot 0
      let factors := ofFn n 1 fun i _ => m.get (remainingRow pivot i) 0 * inverse
      let m' := ofFn n n fun i j =>
        m.get (remainingRow pivot i) (j + 1) - factors.get i 0 * m.get pivot (j + 1)
      let b' := ofFn n b.cols fun i j =>
        b.get (remainingRow pivot i) j - factors.get i 0 * b.get pivot j
      (eliminate n m' b').map fun x =>
        ofFn (n + 1) b.cols fun i j =>
          if i = 0 then
            (b.get pivot j - sumBelow n fun k => m.get pivot (k + 1) * x.get k j) / m.get pivot 0
          else
            x.get (i - 1) j

/-- The solution `x` of `m x = b` for a square matrix `m`, if there is a single one. -/
def solve? (m b : Dense α) : Option (Dense α) := eliminate m.rows m b

end Lyapunov.Dense
