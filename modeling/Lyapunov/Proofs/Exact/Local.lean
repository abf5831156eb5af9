/-
Scalars over which elimination is exact. They form a local ring, in which the numbers without an inverse
are those of the maximal ideal; the test against zero recognises these, the others can be divided by and
count as larger. Exact scalars are such scalars, and so are the dual numbers over them, with the tests of
their real parts: a program can be run over dual numbers as well.
-/
import Mathlib.RingTheory.DualNumber
import Lyapunov.Proofs.Exact.Scalar

namespace Lyapunov

open IsLocalRing TrivSqZeroExt

/-- Scalars of a local ring with tests that tell its numbers without an inverse. -/
structure LocalScalar (R : Type) extends CommRing R, Scalar R, IsLocalRing R where
  beq_zero_iff : ∀ x : R, (x == 0) = true ↔ x ∈ maximalIdeal R
  not_absLt_of_mem : ∀ x y : R, y ∈ maximalIdeal R → absLt x y = false
  absLt_of_not_mem : ∀ x y : R, x ∈ maximalIdeal R → y ∉ maximalIdeal R → absLt x y = true
  div_mul_cancel : ∀ x y : R, y ∉ maximalIdeal R → x / y * y = x

attribute [class] LocalScalar

section Instances

variable {R : Type} [LocalScalar R]

-- the instances of scalars that are exact, or rational, come first
instance (priority := 100) LocalScalar.commRing : CommRing R := LocalScalar.toCommRing ‹_›

instance (priority := 100) LocalScalar.scalar : Scalar R := LocalScalar.toScalar ‹_›

instance (priority := 100) LocalScalar.isLocalRing : IsLocalRing R := LocalScalar.toIsLocalRing ‹_›

theorem Scalar.beq_zero_iff (x : R) : (x == 0) = true ↔ x ∈ maximalIdeal R :=
  LocalScalar.beq_zero_iff ‹_› x

theorem Scalar.not_absLt_of_mem (x : R) {y : R} (h : y ∈ maximalIdeal R) : Scalar.absLt x y = false :=
  LocalScalar.not_absLt_of_mem ‹_› x y h

theorem Scalar.absLt_of_not_mem {x y : R} (hx : x ∈ maximalIdeal R) (hy : y ∉ maximalIdeal R) :
    Scalar.absLt x y = true := LocalScalar.absLt_of_not_mem ‹_› x y hx hy

theorem Scalar.div_mul_cancel (x : R) {y : R} (h : y ∉ maximalIdeal R) : x / y * y = x :=
  LocalScalar.div_mul_cancel ‹_› x y h

end Instances

variable {K : Type} [ExactScalar K]

instance : LocalScalar K where
  absLt := Scalar.absLt
  beq_zero_iff x := by
    rw [maximalIdeal_eq_bot, Ideal.mem_bot]
    exact Scalar.beq_iff x 0
  not_absLt_of_mem x y hy := by
    rw [maximalIdeal_eq_bot, Ideal.mem_bot] at hy
    rw [hy]
    exact Scalar.not_absLt_zero x
  absLt_of_not_mem x y hx hy := by
    rw [maximalIdeal_eq_bot, Ideal.mem_bot] at hx hy
    rw [hx]
    exact (Scalar.zero_absLt y).2 hy
  div_mul_cancel x y hy := by
    rw [maximalIdeal_eq_bot, Ideal.mem_bot] at hy
    exact div_mul_cancel₀ x hy

/-- The ring of dual numbers over a field, under a name of its own. -/
abbrev dualRing (F : Type) [Field F] : CommRing (DualNumber F) := inferInstance

/-- A dual number has an inverse unless its real part is zero. -/
theorem DualNumber.mem_maximalIdeal_iff {x : DualNumber K} :
    x ∈ maximalIdeal (DualNumber K) ↔ x.fst = 0 := by
  rw [mem_maximalIdeal, mem_nonunits_iff, isUnit_iff_isUnit_fst, isUnit_iff_ne_zero, not_not]

/-- The tests of dual numbers are those of their real parts. -/
instance : LocalScalar (DualNumber K) where
  toCommRing := dualRing K
  toIsLocalRing := inferInstance
  div x y := x * y⁻¹
  beq x y := x.fst == y.fst
  absLt x y := Scalar.absLt x.fst y.fst
  beq_zero_iff x := (Scalar.beq_iff x.fst 0).trans DualNumber.mem_maximalIdeal_iff.symm
  not_absLt_of_mem x y hy := by
    rw [DualNumber.mem_maximalIdeal_iff.1 hy]
    exact Scalar.not_absLt_zero x.fst
  absLt_of_not_mem x y hx hy := by
    rw [DualNumber.mem_maximalIdeal_iff.1 hx]
    exact (Scalar.zero_absLt y.fst).2 fun h => hy (DualNumber.mem_maximalIdeal_iff.2 h)
  div_mul_cancel x y hy := by
    have h0 : y.fst ≠ 0 := fun h => hy (DualNumber.mem_maximalIdeal_iff.2 h)
    show x * y⁻¹ * y = x
    rw [mul_assoc, TrivSqZeroExt.inv_mul_cancel h0, mul_one]

end Lyapunov
