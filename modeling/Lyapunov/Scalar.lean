/-
The numbers that matrices hold. `Scalar` lists the operations that evaluation needs and assumes no
law of them; `Float` is the instance that programs run on. `sumBelow` is the sum over an index in
increasing order.
-/
namespace Lyapunov

/-- The arithmetic and the two tests that evaluation uses: numerical equality, and the comparison
of magnitudes that chooses a pivot. -/
class Scalar (α : Type) extends Zero α, One α, Add α, Sub α, Neg α, Mul α, Div α, BEq α where
  /-- Whether the magnitude of the first number is strictly smaller. -/
  absLt : α → α → Bool

/-- Double precision numbers; a comparison with NaN fails. -/
instance : Scalar Float where
  zero := 0.0
  one := 1.0
  absLt x y := x.abs < y.abs

section Sum

variable {α : Type} [Zero α] [Add α]

/-- `f 0 + f 1 + … + f (n - 1)`, added from the left and starting from zero. -/
def sumBelow : Nat → (Nat → α) → α
  | 0, _ => 0
  | n + 1, f => sumBelow n f + f n

@[simp] theorem sumBelow_zero (f : Nat → α) : sumBelow 0 f = 0 := rfl

@[simp] theorem sumBelow_succ (n : Nat) (f : Nat → α) : sumBelow (n + 1) f = sumBelow n f + f n := rfl

end Sum

end Lyapunov
