/-
Smith's method. The solution of `P = A P A' + V` is the sum of the `A^i V (A^i)'`; the method builds
a part of that sum with a fixed number of terms. With frequency doubling the number of terms doubles
in each step.
-/
import Lyapunov.Equation.Dle
import Lyapunov.Equation.LowRank
import Lyapunov.Plugin

namespace Lyapunov

namespace Smith

/-! ## Options -/

def iterSpec : OptionSpec :=
  { name := "iter", kind := .int, default := .int 100, description := "Number of iterations" }

def freqDoublingSpec : OptionSpec :=
  { name := "freq_doubling", kind := .bool, default := .bool false
    description := "Use frequency doubling" }

/-- The options of the method for the full equation. -/
def dleOptions : List OptionSpec := [iterSpec, freqDoublingSpec]

/-- The options of the method for the low-rank equation. -/
def lowRankOptions : List OptionSpec := [iterSpec]

/-- The number of steps, and whether each of them doubles the number of terms. -/
structure Settings where
  iter : Nat := 100
  freqDoubling : Bool := false
deriving DecidableEq

/-- The settings that the options ask for. -/
def Settings.ofOptions (o : Options) : Except Error Settings := do
  let default : Settings := {}
  return ⟨← o.count "iter" default.iter, o.boolOr "freq_doubling" default.freqDoubling⟩

variable {α : Type} [Scalar α]

/-! ## The full equation -/

/-- Steps of `p := a p a' + v`; with doubling each is followed by `v := a v a' + v` and
`a := a a`. -/
def iterate (freqDoubling : Bool) : Nat → (a v p : Expr α) → Build (Expr α)
  | 0, _, _, p => pure p
  | n + 1, a, v, p => do
    let p ← (← a.congruence p).add v
    if freqDoubling then
      let v ← (← a.congruence v).add v
      let a ← a.matmul a
      iterate freqDoubling n a v p
    else
      iterate freqDoubling n a v p

/-- The sum of the first terms of the series for the symmetric part of `v`. -/
def dle (a v : Expr α) (settings : Settings) : Build (Expr α) := do
  let v ← v.symmetrize
  iterate settings.freqDoubling settings.iter a v v

/-! ## The low-rank equation -/

/-- Adds a term to a sum that may still be empty. -/
def addTerm (sum : Option (Expr α)) (term : Expr α) : Build (Option (Expr α)) :=
  match sum with
  | none => pure (some term)
  | some s => return some (← s.add term)

/-- Sums of the first terms of several series, where `terms` gives the terms of one step for the
factor `a^i c`. The factor is absent as long as it is the identity. -/
def sumSeries (a : Expr α) (terms : Option (Expr α) → Build (List (Expr α))) :
    Nat → Option (Expr α) → List (Option (Expr α)) → Build (List (Option (Expr α)))
  | 0, _, sums => pure sums
  | n + 1, factor, sums => do
    let sums ← (sums.zip (← terms factor)).mapM fun (sum, term) => addTerm sum term
    let factor ← match factor with
      | none => pure a
      | some d => a.matmul d
    sumSeries a terms n (some factor) sums

/-- The term `d v d'` of the series. -/
def fullTerm (v : Expr α) : Option (Expr α) → Build (List (Expr α))
  | none => return [v]
  | some d => return [← d.congruence v]

/-- The term `h' d v d' h` for each block `h`. -/
def blockTerms (v : Expr α) (blocks : List (Expr α)) (factor : Option (Expr α)) :
    Build (List (Expr α)) :=
  blocks.mapM fun h => do
    let w ← match factor with
      | none => h.transpose
      | some d => do (← h.transpose).matmul d
    w.congruence v

/-- The answer for the sum of the first `iter` terms. With `H` the terms are projected one by one,
so that the full sum is never formed. -/
def lowRank (inputs : LowRankInputs α) (iter : Nat) : Build (Expr α) := do
  let v ← inputs.v.symmetrize
  let blocks ← inputs.hSplit
  match inputs.h with
  | none =>
    let sums ← sumSeries inputs.a (fullTerm v) iter inputs.c [none]
    match sums.head?.join with
    | some y => pure y
    | none => Expr.zeros inputs.a.shape
  | some _ =>
    let sums ← sumSeries inputs.a (blockTerms v blocks) iter inputs.c (blocks.map fun _ => none)
    Expr.diagcat (← (sums.zip inputs.hBlocks).mapM fun (sum, width) =>
      match sum with
      | some y => pure y
      | none => Expr.zeros (.square width))

/-! ## Plugins -/

variable (α)

/-- Smith's method for the full equation. -/
def dlePlugin : Plugin (DleInputs α) α where
  name := "fixed_smith"
  doc := "Fixed-point Smith iteration for P = A P A' + V, unrolled for a fixed number of steps."
  version := Plugin.interfaceVersion
  options := dleOptions
  build inputs options := do
    options.rejectPositiveDefinite
    dle inputs.a inputs.v (← Settings.ofOptions options)

/-- Smith's method for the low-rank equation. -/
def lowRankPlugin : Plugin (LowRankInputs α) α where
  name := "fixed_smith"
  doc := "Truncated Smith series for P = A P A' + C V C', unrolled for a fixed number of steps."
  version := Plugin.interfaceVersion
  options := lowRankOptions
  build inputs options := do
    options.rejectPositiveDefinite
    lowRank inputs (← Settings.ofOptions options).iter

end Smith

end Lyapunov
