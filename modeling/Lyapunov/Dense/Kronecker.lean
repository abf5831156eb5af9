/-
The Kronecker product, and the two contractions that undo one of its factors: both sum the entries
of a matrix against a factor, block by block. A sum over the places of a matrix runs down its columns,
one after the other.
-/
import Lyapunov.Dense.Basic

namespace Lyapunov.Dense

variable {α : Type} [Zero α]

/-! ## Places and blocks -/

/-- The places of a matrix of shape `s`, column by column. -/
def places (s : Shape) : List (Nat × Nat) :=
  (List.range s.cols).flatMap fun j => (List.range s.rows).map fun i => (i, j)

/-- The block of shape `s` in row `i` and column `j` of the blocks of `g`. -/
def block (g : Dense α) (s : Shape) (i j : Nat) : Dense α :=
  ofFn s.rows s.cols fun k l => g.get (i * s.rows + k) (j * s.cols + l)

theorem get_block (g : Dense α) {s : Shape} (i j : Nat) {k l : Nat} (hk : k < s.rows) (hl : l < s.cols) :
    (g.block s i j).get k l = g.get (i * s.rows + k) (j * s.cols + l) :=
  get_ofFn _ hk hl

section Add

variable [Add α]

/-- The sum of the numbers for the places of a matrix of shape `s`, added one after the other to zero. -/
def sumPlaces (s : Shape) (f : Nat → Nat → α) : α :=
  (places s).foldl (fun sum p => sum + f p.1 p.2) 0

/-- The loop over the places of a matrix of shape `t` that adds a matrix for each of them to the zeros of
shape `s`. -/
def addUp (s t : Shape) (f : Nat → Nat → Dense α) : Dense α :=
  (places t).foldl (fun r p => r.add (f p.1 p.2)) (zero s)

variable {s t : Shape} {f : Nat → Nat → Dense α} {k l : Nat}

theorem shape_foldl_add (ps : List (Nat × Nat)) (r : Dense α) :
    (ps.foldl (fun r p => r.add (f p.1 p.2)) r).shape = r.shape := by
  induction ps generalizing r with
  | nil => rfl
  | cons p ps ih => exact ih (r.add (f p.1 p.2))

theorem shape_addUp (s t : Shape) (f : Nat → Nat → Dense α) : (addUp s t f).shape = s :=
  shape_foldl_add (places t) (zero s)

/-- A loop that adds matrices adds their entries in the same order. -/
theorem get_foldl_add (ps : List (Nat × Nat)) (r : Dense α) (hk : k < r.rows) (hl : l < r.cols) :
    (ps.foldl (fun r p => r.add (f p.1 p.2)) r).get k l =
      ps.foldl (fun sum p => sum + (f p.1 p.2).get k l) (r.get k l) := by
  -- by induction on the places that are left; the matrix so far changes and keeps its shape
  induction ps generalizing r with
  | nil => rfl
  | cons p ps ih =>
    rw [List.foldl_cons, List.foldl_cons, ih (r.add (f p.1 p.2)) hk hl, get_add hk hl]

theorem get_addUp (hk : k < s.rows) (hl : l < s.cols) :
    (addUp s t f).get k l = sumPlaces t fun i j => (f i j).get k l := by
  unfold addUp sumPlaces
  rw [get_foldl_add (places t) (zero s) hk hl, get_zero]

end Add

/-! ## The product and its contractions -/

variable [Mul α]

/-- The Kronecker product: each entry of `a` times the whole of `b`. -/
def kron (a b : Dense α) : Dense α :=
  ofFn (a.rows * b.rows) (a.cols * b.cols) fun i j =>
    a.get (i / b.rows) (j / b.cols) * b.get (i % b.rows) (j % b.cols)

variable [Add α]

/-- Entry `(i, j)` sums block `(i, j)` of `g`, of the shape of `b`, against `b`. -/
def kronContractLeft (g b : Dense α) : Dense α :=
  ofFn (g.rows / b.rows) (g.cols / b.cols) fun i j =>
    sumPlaces b.shape fun k l => g.get (i * b.rows + k) (j * b.cols + l) * b.get k l

/-- The sum of the blocks of `g`, as many as `a` has entries, each times its entry of `a`. -/
def kronContractRight (g a : Dense α) : Dense α :=
  let p := g.rows / a.rows
  let q := g.cols / a.cols
  ofFn p q fun k l => sumPlaces a.shape fun i j => g.get (i * p + k) (j * q + l) * a.get i j

/-- The right contraction is the loop that adds up the blocks column by column, each times its entry of
`a`. No law of the arithmetic is needed. -/
theorem kronContractRight_eq_addUp (g a : Dense α) {s : Shape}
    (hs : (⟨g.rows / a.rows, g.cols / a.cols⟩ : Shape) = s) :
    g.kronContractRight a = addUp s a.shape fun i j => (g.block s i j).scale (a.get i j) := by
  let blocks (i j : Nat) : Dense α := (g.block s i j).scale (a.get i j)
  have hshape : (g.kronContractRight a).shape = (addUp s a.shape blocks).shape :=
    hs.trans (shape_addUp s a.shape blocks).symm
  refine ext_get (congrArg Shape.rows hshape) (congrArg Shape.cols hshape) fun k l hk hl => ?_
  subst hs
  have hk : k < g.rows / a.rows := hk
  have hl : l < g.cols / a.cols := hl
  rw [kronContractRight, get_ofFn _ hk hl, get_addUp hk hl]
  refine congrArg (sumPlaces a.shape) (funext fun i => funext fun j => ?_)
  rw [get_scale _ hk hl, get_block g i j hk hl]

end Lyapunov.Dense
