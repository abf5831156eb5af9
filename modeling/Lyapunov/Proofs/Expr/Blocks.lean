/-
Blocks of expressions. `horzsplit` is read as the blocks of columns, and `diagcat` as the block-diagonal
matrix, so that `project` gives the answer of the low-rank equation for what its argument is read as.
-/
import Mathlib.Data.Option.Basic
import Lyapunov.Proofs.Expr.Reading
import Lyapunov.Proofs.Equation.LowRank

namespace Lyapunov

open Build Lyapunov.Dense Matrix

/-! ## One block -/

namespace Expr

variable {α : Type} [Zero α] [One α]

/-- The block in a matrix of the given shape, with its corner at `row` and `col`. -/
def placeBlock (e : Expr α) (s : Shape) (row col : Nat) : Build (Expr α) := do
  let left ← newConstant (.selector s.rows row e.shape.rows)
  let right ← newConstant (Dense.selector s.cols col e.shape.cols).transpose
  mul3 left e right

theorem placeOnDiagonal_cons (s : Shape) (row col : Nat) (e : Expr α) (es : List (Expr α)) :
    placeOnDiagonal s row col (e :: es) = (do
      let block ← e.placeBlock s row col
      return block :: (← placeOnDiagonal s (row + e.shape.rows) (col + e.shape.cols) es)) := rfl

end Expr

section Reading

variable {α : Type} [Scalar α] {K : Type} [Field K] {R : Type} [CommRing R] [Algebra K R] {φ : α → R}
  {ρ : Expr α → Dense R → Prop} {S S' : Set (Expr α)} {x : Expr α} {d : Dense R} {n : Nat}

namespace Reading

variable (h : Reading K φ ρ)

include h

theorem grows_selector (n offset w : Nat) :
    Grows (Readable ρ) S (Expr.newConstant (.selector n offset w)) (Reads ρ (.selector n offset w)) :=
  h.grows_constant rfl (get_selector_map h.keeps.zero h.keeps.one n offset w)

/-! ## Columns -/

theorem grows_horzsplitFrom (hx : Reads ρ d S x) (hn : d.rows = n) (offset : Nat) (widths : List Nat) :
    Grows (Readable ρ) S (x.horzsplitFrom offset widths) fun S' =>
      List.Forall₂ (fun B e => Reads ρ (ofMatrix B.entries) S' e) (d.columnBlocks n offset widths) := by
  induction widths generalizing S offset with
  | nil => exact grows_pure .nil
  | cons w widths ih =>
    have hcols : x.shape.cols = d.cols := congrArg Shape.cols (h.shape hx.reads)
    unfold Expr.horzsplitFrom
    rw [hcols]
    refine grows_bind (h.grows_selector d.cols offset w) fun S₁ sel hS hsel => ?_
    refine grows_bind (h.grows_product (hx.mono hS) hsel rfl) fun S₂ block hS₂ hblock => ?_
    rw [mul_selector d hn] at hblock
    refine grows_bind (ih (hx.mono (hS.trans hS₂)) (offset + w)) fun S₃ blocks hS₃ hblocks => ?_
    exact grows_pure (.cons (hblock.mono hS₃) hblocks)

/-! ## The diagonal -/

/-- A block between selectors is put at its place. -/
theorem grows_placeBlock {e : Expr α} {b : Dense R} (he : Reads ρ b S e) (s : Shape) (row col : Nat) :
    Grows (Readable ρ) S (e.placeBlock s row col) (Reads ρ (placed s row col b)) := by
  have hshape : e.shape = b.shape := h.shape he.reads
  unfold Expr.placeBlock
  rw [hshape, ← selector_mul_selector]
  refine grows_bind (h.grows_selector s.rows row b.rows) fun S₁ left h₁ hleft => ?_
  have htranspose : Grows (Readable ρ) S₁
      (Expr.newConstant (Dense.selector s.cols col b.cols).transpose)
      (Reads ρ (Dense.selector s.cols col b.cols).transpose) :=
    h.grows_constant rfl fun i j => by
      rw [get_transpose, get_transpose]
      exact get_selector_map h.keeps.zero h.keeps.one _ _ _ _ _
  refine grows_bind htranspose fun S₂ right h₂ hright => ?_
  refine grows_bind (h.grows_product (he.mono (h₁.trans h₂)) hright rfl) fun S₃ inner h₃ hinner => ?_
  exact h.grows_product (hleft.mono (h₂.trans h₃)) hinner rfl

theorem grows_placeOnDiagonal {s : Shape} {bs : List (Dense R)} {es : List (Expr α)}
    (hes : List.Forall₂ (fun b e => Reads ρ b S e) bs es) (row col : Nat) :
    Grows (Readable ρ) S (Expr.placeOnDiagonal s row col es) fun S' =>
      List.Forall₂ (fun b e => Reads ρ b S' e) (placements s row col bs) := by
  induction bs generalizing S row col es with
  | nil =>
    cases hes
    exact grows_pure .nil
  | cons b bs ih =>
    cases hes with
    | @cons _ e _ es he hes =>
      have hshape : e.shape = b.shape := h.shape he.reads
      rw [Expr.placeOnDiagonal_cons]
      refine grows_bind (h.grows_placeBlock he s row col) fun S₁ block h₁ hblock => ?_
      rw [hshape]
      refine grows_bind (ih (hes.imp fun c e he => he.mono h₁) (row + b.rows) (col + b.cols))
        fun S₂ blocks h₂ hblocks => ?_
      exact grows_pure (.cons (hblock.mono h₂) hblocks)

/-- Matrices of one shape, added up from the left. -/
theorem grows_foldlM_add {s : Shape} {a : Dense R} {bs : List (Dense R)} {es : List (Expr α)}
    (hx : Reads ρ a S x) (ha : a.shape = s) (hes : List.Forall₂ (fun b e => Reads ρ b S e) bs es)
    (hbs : ∀ b ∈ bs, b.shape = s) :
    Grows (Readable ρ) S (es.foldlM Expr.add x) (Reads ρ (bs.foldl Dense.add a)) := by
  induction bs generalizing S x a es with
  | nil =>
    cases hes
    exact grows_pure hx
  | cons b bs ih =>
    cases hes with
    | @cons _ e _ es he hes =>
      have hb := hbs b List.mem_cons_self
      rw [List.foldlM_cons]
      refine grows_bind (h.grows_sum hx he (ha.trans hb.symm)) fun S₁ y h₁ hy => ?_
      exact ih hy ha (hes.imp fun c e he => he.mono h₁) fun c hc => hbs c (List.mem_cons_of_mem b hc)

theorem foldl_shape {bs : List (Dense R)} {es : List (Expr α)}
    (hes : List.Forall₂ (fun b e => Reads ρ b S e) bs es) (s : Shape) :
    es.foldl (fun s x => ⟨s.rows + x.shape.rows, s.cols + x.shape.cols⟩) s =
      (⟨s.rows + (Dense.blockDiagonal bs).rows, s.cols + (Dense.blockDiagonal bs).cols⟩ : Shape) := by
  induction hes generalizing s with
  | nil => rfl
  | @cons b e bs es he _ ih =>
    have hshape : e.shape = b.shape := h.shape he.reads
    rw [List.foldl_cons, ih, hshape, rows_blockDiagonal_cons, cols_blockDiagonal_cons, ← Nat.add_assoc,
      ← Nat.add_assoc]
    rfl

theorem grows_diagcat {bs : List (Dense R)} {es : List (Expr α)}
    (hes : List.Forall₂ (fun b e => Reads ρ b S e) bs es) :
    Grows (Readable ρ) S (Expr.diagcat es) (Reads ρ (Dense.blockDiagonal bs)) := by
  cases hes with
  | nil => exact h.grows_constant rfl fun i j => by rw [Dense.blockDiagonal, get_zero, get_zero, h.keeps.zero]
  | @cons b e bs es he hes =>
    cases hes with
    | nil =>
      rw [blockDiagonal_singleton]
      exact grows_pure he
    | @cons b' e' bs es he' hes =>
      have hall : List.Forall₂ (fun b e => Reads ρ b S e) (b :: b' :: bs) (e :: e' :: es) :=
        .cons he (.cons he' hes)
      have hshape : _ = (Dense.blockDiagonal (b :: b' :: bs)).shape :=
        (h.foldl_shape hall ⟨0, 0⟩).trans (congrArg₂ Shape.mk (Nat.zero_add _) (Nat.zero_add _))
      unfold Expr.diagcat
      dsimp only
      rw [hshape]
      refine grows_bind (h.grows_placeOnDiagonal hall 0 0) fun S₁ ps h₁ hps => ?_
      cases hps with
      | cons hfirst hrest =>
        rw [← foldl_add_placements_cons]
        exact h.grows_foldlM_add hfirst rfl hrest shape_of_mem_placements

/-! ## The answer of the low-rank equation -/

theorem grows_hSplit {i : LowRankInputs α} {H : Option (Dense R)}
    (hH : Option.Rel (fun e d => Reads ρ d S e) i.h H) (hrows : ∀ d ∈ H, d.rows = n) :
    Grows (Readable ρ) S i.hSplit fun S' => List.Forall₂ (fun B e => Reads ρ (ofMatrix B.entries) S' e)
      (H.elim [] fun d => d.columnBlocks n 0 i.hBlocks) := by
  obtain ⟨a, v, c, o, widths⟩ := i
  cases hH with
  | none => exact grows_pure .nil
  | some he => exact h.grows_horzsplitFrom he (hrows _ rfl) 0 widths

/-- The projections to blocks of columns. -/
theorem grows_projections {P : Matrix (Fin n) (Fin n) R} {Bs : List (ColumnBlock R n)}
    {blocks : List (Expr α)} (hblocks : List.Forall₂ (fun B e => Reads ρ (ofMatrix B.entries) S e) Bs blocks)
    (hx : Reads ρ (ofMatrix P) S x) :
    Grows (Readable ρ) S (blocks.mapM fun e => do Expr.congruence (← e.transpose) x) fun S' =>
      List.Forall₂ (fun B y => Reads ρ (ofMatrix (B.project P)) S' y) Bs := by
  refine grows_mapM_forall₂ (I := fun S (B : ColumnBlock R n) e => Reads ρ (ofMatrix B.entries) S e)
    (Q := fun S (B : ColumnBlock R n) y => Reads ρ (ofMatrix (B.project P)) S y) hblocks
    (fun _ _ _ _ hS he => he.mono hS) (fun _ _ _ _ hS hy => hy.mono hS) fun S₁ B e h₁ he => ?_
  refine grows_bind (h.grows_transpose he) fun S₂ et h₂ het => ?_
  exact h.grows_congruence het (hx.mono (h₁.trans h₂))

/-- What `project` gives is read as the answer for what its argument is read as. -/
theorem grows_project {i : LowRankInputs α} {H : Option (Dense R)} {P : Matrix (Fin n) (Fin n) R}
    (hH : Option.Rel (fun e d => Reads ρ d S e) i.h H) (hrows : ∀ d ∈ H, d.rows = n)
    (hx : Reads ρ (ofMatrix P) S x) :
    Grows (Readable ρ) S (i.project x) (Reads ρ (LowRankDle.answer H i.hBlocks P)) := by
  have hsplit := h.grows_hSplit hH hrows
  obtain ⟨a, v, c, o, widths⟩ := i
  cases hH with
  | none => exact grows_pure hx
  | @some e d he =>
    refine grows_bind hsplit fun S₁ blocks h₁ hblocks => ?_
    refine grows_bind (h.grows_projections hblocks (hx.mono h₁)) fun S₂ ys h₂ hys => ?_
    exact h.grows_diagcat (List.forall₂_map_left_iff.2 hys)

end Reading

end Reading

/-! ## What an answer depends on -/

section Dependence

variable {α : Type} {x : Expr α}

namespace Expr

theorem returns_below_mul3 {y e z : Expr α} (hx : Below x e) :
    (mul3 y e z).Returns (Below x ·) :=
  returns_bind (returns_newBinary fun i => hx.binary_left i .matmul z) fun _ hyz =>
    returns_newBinary fun i => hyz.binary_right i .matmul y

variable [Zero α] [One α]

theorem returns_below_placeOnDiagonal {s : Shape} {row col : Nat} {es : List (Expr α)}
    (hes : ∀ e ∈ es, Below x e) :
    (placeOnDiagonal s row col es).Returns fun ps =>
      ps.length = es.length ∧ ∀ p ∈ ps, Below x p := by
  induction es generalizing row col with
  | nil => exact returns_pure ⟨rfl, hes⟩
  | cons e es ih =>
    rw [placeOnDiagonal_cons]
    have hblock : (e.placeBlock s row col).Returns (Below x ·) :=
      returns_bind (returns_true _) fun left _ => returns_bind (returns_true _) fun right _ =>
        returns_below_mul3 (hes e List.mem_cons_self)
    refine returns_bind hblock fun p hp => ?_
    refine returns_bind (ih fun e he => hes e (List.mem_cons_of_mem _ he)) fun ps hps => ?_
    exact returns_pure ⟨by rw [List.length_cons, List.length_cons, hps.1],
      List.forall_mem_cons.2 ⟨hp, hps.2⟩⟩

omit [Zero α] [One α] in
theorem returns_below_foldlM_add {e : Expr α} (hx : Below x e) (es : List (Expr α)) :
    (es.foldlM add e).Returns (Below x ·) := by
  induction es generalizing e with
  | nil => exact returns_pure hx
  | cons y es ih =>
    rw [List.foldlM_cons]
    exact returns_bind (returns_newBinary fun i => hx.binary_left i .add y) fun _ hz => ih hz

/-- Every block is used. -/
theorem returns_below_diagcat {es : List (Expr α)} (hne : es ≠ []) (hes : ∀ e ∈ es, Below x e) :
    (diagcat es).Returns (Below x ·) := by
  cases es with
  | nil => exact absurd rfl hne
  | cons e es =>
    cases es with
    | nil => exact returns_pure (hes e List.mem_cons_self)
    | cons e' es =>
      unfold diagcat
      refine returns_bind (returns_below_placeOnDiagonal hes) fun ps hps => ?_
      cases ps with
      | nil => exact absurd hps.1 (by simp)
      | cons p ps => exact returns_below_foldlM_add (hps.2 p List.mem_cons_self) ps

theorem returns_length_horzsplitFrom (e : Expr α) (offset : Nat) (widths : List Nat) :
    (e.horzsplitFrom offset widths).Returns fun es => es.length = widths.length := by
  induction widths generalizing offset with
  | nil => exact returns_pure rfl
  | cons w widths ih =>
    unfold horzsplitFrom
    refine returns_bind (returns_true _) fun sel _ => ?_
    refine returns_bind (returns_true _) fun block _ => ?_
    refine returns_bind (ih (offset + w)) fun es hes => ?_
    exact returns_pure (congrArg (· + 1) hes)

end Expr

/-- The answer depends on the solution. -/
theorem LowRankInputs.returns_below_project [Zero α] [One α] {i : LowRankInputs α}
    (hne : i.h ≠ none → i.hBlocks ≠ []) :
    (i.project x).Returns (Expr.Below x ·) := by
  obtain ⟨a, v, c, o, widths⟩ := i
  cases o with
  | none => exact returns_pure (.refl x)
  | some e =>
    have hne : widths ≠ [] := hne (by simp)
    refine returns_bind (Expr.returns_length_horzsplitFrom e 0 widths) fun blocks hblocks => ?_
    have hmap : ∀ b ∈ blocks, Returns (do Expr.congruence (← b.transpose) x) (Expr.Below x ·) :=
      fun b _ => returns_bind (returns_true _) fun bt _ => returns_bind (returns_true _) fun btt _ =>
        Expr.returns_below_mul3 (.refl x)
    refine returns_bind (returns_mapM hmap) fun ys hys => ?_
    refine Expr.returns_below_diagcat (fun hnil => hne ?_) fun y hy => ?_
    · rw [hnil, List.forall₂_nil_right_iff] at hys
      exact List.length_eq_zero_iff.1 (by rw [← hblocks, hys]; rfl)
    · obtain ⟨_, _, hxy⟩ := Except.forall₂_exists_right hys.flip y hy
      exact hxy

end Dependence

end Lyapunov
