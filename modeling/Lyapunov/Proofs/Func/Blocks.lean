/-
Values of blocks. What `horzsplit`, `diagcat` and `project` build from outputs of a function can be outputs of
a function with the same inputs, and the widths of the blocks decide where its values have which entries.
-/
import Lyapunov.Proofs.Expr.Blocks
import Lyapunov.Proofs.Expr.Shape
import Lyapunov.Proofs.Func.Nodes

namespace Lyapunov

open Build Lyapunov.Dense Finset Matrix

/-! ## Places -/

/-- The index is in the block with the number `j`, where blocks of the given widths follow each other. -/
def InBlock (widths : List Nat) (j r : Nat) : Prop :=
  (widths.take j).sum ≤ r ∧ r < (widths.take (j + 1)).sum

theorem inBlock_zero {w r : Nat} {widths : List Nat} : InBlock (w :: widths) 0 r ↔ r < w := by
  simp [InBlock]

theorem inBlock_succ {w j r : Nat} {widths : List Nat} :
    InBlock (w :: widths) (j + 1) r ↔ w ≤ r ∧ InBlock widths j (r - w) := by
  simp only [InBlock, List.take_succ_cons, List.sum_cons]
  omega

/-- An index in a block has a place there. -/
theorem InBlock.exists_place {widths : List Nat} {j r : Nat} (h : InBlock widths j r) :
    ∃ w k, widths[j]? = some w ∧ k < w ∧ r = (widths.take j).sum + k := by
  induction widths generalizing j r with
  | nil => simp [InBlock] at h
  | cons w widths ih =>
    cases j with
    | zero => exact ⟨w, r, rfl, inBlock_zero.1 h, (Nat.zero_add r).symm⟩
    | succ j =>
      obtain ⟨hle, h⟩ := inBlock_succ.1 h
      obtain ⟨w', k, hw, hk, hr⟩ := ih h
      refine ⟨w', k, hw, hk, ?_⟩
      rw [List.take_succ_cons, List.sum_cons]
      omega

namespace Dense

section

variable {R : Type} [Zero R]

/-- The `w` columns of `d` from `offset` on; columns past the end are zero. -/
def columnsFrom (d : Dense R) (offset w : Nat) : Dense R :=
  ofFn d.rows w fun i j => if offset + j < d.cols then d.get i (offset + j) else 0

/-- The blocks of `M` along the diagonal are the `ds`, and outside of them it is zero. -/
structure IsBlockDiagonal (ds : List (Dense R)) (M : Dense R) : Prop where
  shape : M.shape = ⟨(ds.map (·.rows)).sum, (ds.map (·.cols)).sum⟩
  block : ∀ j b, ds[j]? = some b → ∀ r c, r < b.rows → c < b.cols →
    M.get (((ds.map (·.rows)).take j).sum + r) (((ds.map (·.cols)).take j).sum + c) = b.get r c
  zero : ∀ r c, (∀ j, ¬ (InBlock (ds.map (·.rows)) j r ∧ InBlock (ds.map (·.cols)) j c)) → M.get r c = 0

/-- The entries of `M` are those of `N` where row and column are in the same block, and zero elsewhere. -/
structure IsBlockPart (widths : List Nat) (N M : Dense R) : Prop where
  shape : M.shape = N.shape
  same : ∀ j r c, InBlock widths j r → InBlock widths j c → M.get r c = N.get r c
  zero : ∀ r c, (∀ j, ¬ (InBlock widths j r ∧ InBlock widths j c)) → M.get r c = 0

end

variable {R : Type} [CommRing R]

theorem isBlockDiagonal_blockDiagonal (ds : List (Dense R)) : IsBlockDiagonal ds (blockDiagonal ds) := by
  induction ds with
  | nil => exact ⟨rfl, fun j b h => by simp at h, fun r c _ => get_zero _ _ _⟩
  | cons d ds ih =>
    refine ⟨?_, fun j b hb r c hr hc => ?_, fun r c hzero => ?_⟩
    · rw [List.map_cons, List.map_cons, List.sum_cons, List.sum_cons]
      exact congrArg₂ Shape.mk (congrArg (d.rows + ·) (rows_of_shape ih.shape))
        (congrArg (d.cols + ·) (cols_of_shape ih.shape))
    · rw [get_blockDiagonal_cons]
      cases j with
      | zero =>
        cases hb
        rw [List.take_zero, List.take_zero, List.sum_nil, Nat.zero_add, Nat.zero_add, if_neg (by omega),
          add_zero]
      | succ j =>
        -- the first block is zero below its rows, which leaves the entry of the other blocks
        simp only [List.map_cons, List.take_succ_cons, List.sum_cons, Nat.add_assoc]
        rw [get_of_rows_le (Nat.le_add_right _ _), zero_add,
          if_pos ⟨Nat.le_add_right _ _, Nat.le_add_right _ _⟩, Nat.add_sub_cancel_left, Nat.add_sub_cancel_left]
        exact ih.block j b hb r c hr hc
    · have hhead : ¬ (r < d.rows ∧ c < d.cols) := fun h =>
        hzero 0 ⟨inBlock_zero.2 h.1, inBlock_zero.2 h.2⟩
      rw [get_blockDiagonal_cons, get_outside hhead, zero_add]
      split
      · rename_i h
        exact ih.zero _ _ fun j hj => hzero (j + 1) ⟨inBlock_succ.2 ⟨h.1, hj.1⟩, inBlock_succ.2 ⟨h.2, hj.2⟩⟩
      · rfl

theorem getElem?_columnBlocks (n : Nat) (d : Dense R) (offset : Nat) (widths : List Nat) (j : Nat) :
    (d.columnBlocks n offset widths)[j]? =
      widths[j]?.map fun w => d.columns n (offset + (widths.take j).sum) w := by
  induction widths generalizing offset j with
  | nil => rfl
  | cons w widths ih =>
    cases j with
    | zero => rfl
    | succ j =>
      rw [columnBlocks, List.getElem?_cons_succ, ih, List.getElem?_cons_succ, List.take_succ_cons,
        List.sum_cons, Nat.add_assoc]

theorem ofMatrix_columns {n : Nat} {d : Dense R} (hn : d.rows = n) (offset w : Nat) :
    ofMatrix (d.columns n offset w).entries = d.columnsFrom offset w := by
  refine (eq_ofMatrix (by rw [← hn]; rfl) fun i j => ?_).symm
  have hj : j.val < w := j.2
  rw [columnsFrom, get_ofFn _ (hn ▸ i.2) hj]
  split
  · rfl
  · rename_i h
    exact (get_of_cols_le (Nat.not_lt.1 h) _).symm

theorem map_columnBlocks {n : Nat} {d : Dense R} (hn : d.rows = n) (widths : List Nat) :
    (d.columnBlocks n 0 widths).map (fun B => ofMatrix B.entries) =
      widths.mapIdx fun j w => d.columnsFrom (widths.take j).sum w := by
  refine List.ext_getElem? fun j => ?_
  rw [List.getElem?_map, getElem?_columnBlocks, List.getElem?_mapIdx, Option.map_map]
  refine congrArg (Option.map · _) (funext fun w => ?_)
  rw [Function.comp_apply, ofMatrix_columns hn, Nat.zero_add]

/-- The projection to a block of columns is the block of the projection. -/
theorem get_project_columns {n : Nat} {d : Dense R} (hn : d.rows = n) (P : Matrix (Fin n) (Fin n) R)
    (offset : Nat) {w r c : Nat} (hr : r < w) (hc : c < w) :
    (ofMatrix ((d.columns n offset w).project P)).get r c =
      ((d.transpose.mul (ofMatrix P)).mul d).get (offset + r) (offset + c) := by
  have hentry : (ofMatrix ((d.columns n offset w).project P)).get r c =
      ∑ b : Fin n, (∑ a : Fin n, d.get a (offset + r) * P a b) * d.get b (offset + c) :=
    get_ofMatrix ((d.columns n offset w).project P) ⟨r, hr⟩ ⟨c, hc⟩
  have hcols : (d.transpose.mul (ofMatrix P)).cols = n := rfl
  have hinner : d.transpose.cols = n := hn
  rw [hentry, get_mul', hcols, sum_range]
  refine sum_congr rfl fun b _ => ?_
  rw [get_mul', hinner, sum_range]
  congr 1
  exact sum_congr rfl fun a _ => by rw [get_transpose, get_ofMatrix]

/-- The projections to the blocks of columns are the blocks of the projection. -/
theorem isBlockPart_projections {n : Nat} {d : Dense R} (hn : d.rows = n) {widths : List Nat}
    (hwidths : widths.sum = d.cols) (P : Matrix (Fin n) (Fin n) R) :
    IsBlockPart widths ((d.transpose.mul (ofMatrix P)).mul d)
      (LowRankDle.projections (d.columnBlocks n 0 widths) P) := by
  have hdiagonal := isBlockDiagonal_blockDiagonal
    ((d.columnBlocks n 0 widths).map fun B => ofMatrix (B.project P))
  have hrows : ((d.columnBlocks n 0 widths).map fun B => ofMatrix (B.project P)).map (·.rows) = widths := by
    rw [List.map_map]
    exact map_width_columnBlocks n d 0 widths
  have hcols : ((d.columnBlocks n 0 widths).map fun B => ofMatrix (B.project P)).map (·.cols) = widths := by
    rw [List.map_map]
    exact map_width_columnBlocks n d 0 widths
  obtain ⟨hshape, hblock, hzero⟩ := hdiagonal
  rw [hrows, hcols] at hshape hblock hzero
  refine ⟨?_, fun j r c hr hc => ?_, hzero⟩
  · rw [hwidths] at hshape
    exact hshape
  · obtain ⟨w, k, hw, hk, rfl⟩ := hr.exists_place
    obtain ⟨w', l, hw', hl, rfl⟩ := hc.exists_place
    obtain rfl := Option.some.inj (hw.symm.trans hw')
    rw [← get_project_columns hn P _ hk hl]
    refine hblock j _ ?_ k l hk hl
    rw [List.getElem?_map, getElem?_columnBlocks, hw, Nat.zero_add]
    rfl

end Dense

/-! ## Building on a function -/

namespace Func

section

variable {α : Type} [Scalar α]

/-- The expression is an output of the function, with the value `d` among the values of the outputs. -/
def HasValue (f : Func α) (values : List (Dense α)) (e : Expr α) (d : Dense α) : Prop :=
  (e, d) ∈ (f.outputs.map (·.2)).zip values

/-- What `m` builds from the node with the number `n` on has the values `ds` at the arguments: under all names
it makes a function with the inputs of `f`, and these are the values of the function. -/
def BuildsTo (f : Func α) (n : Nat) (args : List (Argument α)) (m : Build (List (Expr α)))
    (ds : List (Dense α)) : Prop :=
  (m.run n).1.length = ds.length ∧
  ∀ (name : String) (names : List String), names.Nodup → names.length = ds.length →
    ∃ g, make name f.inputs (names.zip (m.run n).1) = .ok g ∧ g.eval args = .ok ds

/-- The expression has a value at the arguments of the function, its operands fit, and if it is a symbol then
it is an input. -/
def Evaluates (f : Func α) (args : List (Argument α)) (e : Expr α) (d : Dense α) : Prop :=
  e.Computes (f.binding args) d ∧ Fits True (fun _ => True) (nodesOf f.inputs) e

variable {f : Func α} {n : Nat} {args : List (Argument α)} {values : List (Dense α)}

omit [Scalar α] in
theorem NumberedBelow.fits (hf : f.NumberedBelow n) {e : Expr α} (he : e ∈ f.nodes) :
    Fits True (fun _ => True) (nodesOf f.inputs) e :=
  ⟨fun _ => ⟨hf.check e he, trivial⟩, hf.symbol e he⟩

theorem NumberedBelow.store_evaluates (hf : f.NumberedBelow n) (h : f.eval args = .ok values) :
    Store (Readable (f.Evaluates args)) n f.nodes where
  graph := hf.graph
  below := hf.below
  holds e he := by
    rcases f.mem_nodes he with hi | hr
    · obtain ⟨v, hv⟩ := hf.exists_computes_input (shapes_of_eval h) hi
      exact ⟨v, hv, hf.fits he⟩
    · exact ⟨_, (hf.evaluated h hr).computes, hf.fits he⟩

theorem HasValue.reads (hf : f.NumberedBelow n) (h : f.eval args = .ok values) {e : Expr α} {d : Dense α}
    (he : f.HasValue values e d) : Reads (f.Evaluates args) d f.nodes e := by
  have hvalues : List.Forall₂ (fun e v => e.value (f.binding args) = .ok v) (f.outputs.map (·.2)) values :=
    List.forall₂_map_left_iff.2 ((eval_eq_ok hf.isDag (shapes_of_eval h)).1 h)
  obtain ⟨p, hp, rfl⟩ := List.mem_map.1 (List.of_mem_zip he).1
  have hvalue := List.forall₂_zip hvalues he
  have hcomputes := (hf.evaluated h (f.reachable_output hp)).computes
  rw [Except.ok.inj (hcomputes.value.symm.trans hvalue)] at hcomputes
  exact ⟨f.output_mem_nodes hp, hcomputes, hf.fits (f.output_mem_nodes hp)⟩

/-- What is built from nodes of the function and read as some matrices has these as its values. -/
theorem NumberedBelow.buildsTo (hf : f.NumberedBelow n) (h : f.eval args = .ok values)
    {m : Build (List (Expr α))} {ds : List (Dense α)}
    (hm : Grows (Readable (f.Evaluates args)) f.nodes m fun S es =>
      List.Forall₂ (fun d e => Reads (f.Evaluates args) d S e) ds es) : f.BuildsTo n args m ds := by
  obtain ⟨S, -, hstore, hes⟩ := hm n (hf.store_evaluates h)
  refine ⟨hes.length_eq.symm, fun name names hnames hlength => ?_⟩
  have hzip : (names.zip (m.run n).1).map (·.2) = (m.run n).1 :=
    List.map_snd_zip (by rw [hlength, hes.length_eq])
  have hroots : ∀ r ∈ (names.zip (m.run n).1).map (·.2), r ∈ S := by
    rw [hzip]
    intro r hr
    obtain ⟨d, -, hd⟩ := Except.forall₂_exists_right hes.flip r hr
    exact hd.mem
  have hdag := hstore.graph.isDag hroots
  have hnamed : Named f.inputs (names.zip (m.run n).1) :=
    ⟨f.named.symbols, f.named.inputNames, f.named.inputIds, by
      rwa [List.map_fst_zip (by rw [hlength, hes.length_eq])]⟩
  -- the nodes below the new outputs are among those built or those of `f`, so that they fit
  obtain ⟨g, hg⟩ := (@exists_make_iff _ name _ _ hdag).2 ⟨hnamed, fun e he => by
    obtain ⟨d, hd⟩ := hstore.holds e (hstore.graph.reachable hroots he)
    refine ⟨(hd.2.check trivial).1, fun hs => ?_⟩
    obtain ⟨p, hp, hpe⟩ := hd.2.symbol hs
    exact ⟨p, hp, congrArg Expr.id hpe⟩⟩
  -- with the inputs of `f` the arguments are bound as they are in `f`
  obtain ⟨-, hi, ho⟩ := make_eq_ok hg
  have hbinding : g.binding args = f.binding args := by
    unfold binding
    rw [hi]
  have hshapes : args.map (·.shape) = g.inputShapes := by
    rw [shapes_of_eval h, inputShapes, inputShapes, hi]
  refine ⟨g, hg, (eval_eq_ok (ho ▸ hdag) hshapes).2 ?_⟩
  have hvalues : List.Forall₂ (fun e d => e.value (f.binding args) = .ok d) (g.outputs.map (·.2)) ds := by
    rw [ho, hzip]
    exact hes.flip.imp fun e d hd => hd.reads.1.value
  rw [hbinding]
  exact List.forall₂_map_left_iff.1 hvalues

end

variable {K : Type} [ExactScalar K]

theorem reading_evaluates (f : Func K) (args : List (Argument K)) :
    Reading K (algebraMap K K) (f.Evaluates args) :=
  (Expr.kept_fits _).reading_and (Expr.reading_computes (f.binding args))

/-- In exact arithmetic the blocks of `horzsplit` have the columns from the sum of the previous widths on,
`diagcat` has its blocks along the diagonal and is zero elsewhere, and `project` has the entries of `H' P H` in
the blocks of `H`. -/
theorem blocks_spec (f : Func K) (n : Nat) (args : List (Argument K)) (values : List (Dense K))
    (hf : f.NumberedBelow n) (h : f.eval args = .ok values) :
    (∀ (x : Expr K) (d : Dense K) (widths : List Nat), f.HasValue values x d →
      f.BuildsTo n args (x.horzsplit widths)
        (widths.mapIdx fun j w => d.columnsFrom (widths.take j).sum w)) ∧
    (∀ (es : List (Expr K)) (ds : List (Dense K)), List.Forall₂ (f.HasValue values) es ds →
      ∃ M, IsBlockDiagonal ds M ∧ f.BuildsTo n args (List.singleton <$> Expr.diagcat es) [M]) ∧
    ∀ (i : LowRankInputs K) (e p : Expr K) (H P : Dense K), i.h = some e → f.HasValue values e H →
      f.HasValue values p P → P.shape = .square H.rows → i.hBlocks.sum = H.cols →
      ∃ M, IsBlockPart i.hBlocks ((H.transpose.mul P).mul H) M ∧
        f.BuildsTo n args (List.singleton <$> i.project p) [M] := by
  have hreading := f.reading_evaluates args
  have hsingle {m : Build (Expr K)} {M : Dense K}
      (hm : Grows (Readable (f.Evaluates args)) f.nodes m (Reads (f.Evaluates args) M)) :
      f.BuildsTo n args (List.singleton <$> m) [M] := by
    refine hf.buildsTo h ?_
    rw [← bind_pure_comp]
    exact grows_bind hm fun S e _ he => grows_pure (.cons he .nil)
  refine ⟨fun x d widths hx => ?_, fun es ds hes => ?_, fun i e p H P hi he hp hshape hwidths => ?_⟩
  · refine hf.buildsTo h ?_
    rw [← map_columnBlocks rfl widths]
    exact (hreading.grows_horzsplitFrom (hx.reads hf h) rfl 0 widths).imp fun S es _ hes =>
      List.forall₂_map_left_iff.2 hes
  · refine ⟨_, isBlockDiagonal_blockDiagonal ds, hsingle (hreading.grows_diagcat ?_)⟩
    exact (hes.imp fun e d he => he.reads hf h).flip
  · obtain ⟨P, rfl⟩ := exists_ofMatrix hshape
    refine ⟨_, isBlockPart_projections rfl hwidths P, hsingle ?_⟩
    have hH : Option.Rel (fun e d => Reads (f.Evaluates args) d f.nodes e) i.h (some H) :=
      hi ▸ .some (he.reads hf h)
    exact hreading.grows_project hH (fun d hd => by cases hd; rfl) (hp.reads hf h)

/-- A row of two numbers and a number. -/
def rowAndNumber : List (Expr ℚ) := [.symbol 0 "H" ⟨1, 2⟩, .symbol 1 "P" .scalar]

/-- The function that gives its arguments, a row and a number, as its values. -/
theorem exists_rowAndNumber : ∃ f : Func ℚ, f.outputs = ["h", "p"].zip rowAndNumber ∧ f.NumberedBelow 2 ∧
    ∀ d : Dense ℚ, d.shape = ⟨1, 2⟩ → ∀ x : ℚ, f.eval [.dense d, .scalar x] = .ok [d, .ofScalar x] := by
  have hS : IsGraph {e | e ∈ rowAndNumber} :=
    isGraph_list (by simp [rowAndNumber, Expr.operands]) (by simp [rowAndNumber, Expr.id])
  have hnamed : Named (["h", "p"].zip rowAndNumber) (["h", "p"].zip rowAndNumber) :=
    ⟨by decide, by decide, by decide, by decide⟩
  obtain ⟨f, hi, ho, hnumbered, -⟩ := exists_of_list hS "f" hnamed (by simp [rowAndNumber])
    (by simp [rowAndNumber]) (by decide) (n := 2) (by decide)
  refine ⟨f, ho, hnumbered, fun d hd x => (eval_eq_ok hnumbered.isDag ?_).2 ?_⟩
  · rw [inputShapes, hi]
    exact congrArg (fun s => [s, Shape.scalar]) hd
  · have hrow : f.inputs[0]? = some ("h", rowAndNumber[0]) := by rw [hi]; rfl
    have hnumber : f.inputs[1]? = some ("p", rowAndNumber[1]) := by rw [hi]; rfl
    have hd : ([.dense d, .scalar x] : List (Argument ℚ))[0]? = some (.dense d) := rfl
    have hx : ([.dense d, .scalar x] : List (Argument ℚ))[1]? = some (.scalar x) := rfl
    rw [ho]
    exact .cons (congrArg Except.ok (f.binding_input hrow hd))
      (.cons (congrArg Except.ok (f.binding_input hnumber hx)) .nil)

/-- The row `1 2`. -/
def oneTwo : Dense ℚ := .ofFn 1 2 fun _ j => j + 1

theorem blocks_rowAndNumber : ∃ f : Func ℚ, f.NumberedBelow 2 ∧
    f.eval [.dense oneTwo, .scalar 3] = .ok [oneTwo, .ofScalar 3] ∧
    f.BuildsTo 2 [.dense oneTwo, .scalar 3] (rowAndNumber[0].horzsplit [1, 2])
      [oneTwo.columnsFrom 0 1, oneTwo.columnsFrom 1 2] ∧
    (∃ M, IsBlockDiagonal [oneTwo, .ofScalar 3, oneTwo] M ∧ f.BuildsTo 2 [.dense oneTwo, .scalar 3]
      (List.singleton <$> Expr.diagcat [rowAndNumber[0], rowAndNumber[1], rowAndNumber[0]]) [M]) ∧
    ∃ M, IsBlockPart [1, 1] ((oneTwo.transpose.mul (.ofScalar 3)).mul oneTwo) M ∧
      f.BuildsTo 2 [.dense oneTwo, .scalar 3] (List.singleton <$> LowRankInputs.project
        ⟨rowAndNumber[1], rowAndNumber[1], none, some rowAndNumber[0], [1, 1]⟩ rowAndNumber[1]) [M] := by
  obtain ⟨f, ho, hnumbered, heval⟩ := exists_rowAndNumber
  have hvalues := heval oneTwo rfl 3
  have hzip : (f.outputs.map (·.2)).zip [oneTwo, .ofScalar 3] =
      [(rowAndNumber[0], oneTwo), (rowAndNumber[1], .ofScalar 3)] := by
    rw [ho]
    rfl
  have hrow : f.HasValue [oneTwo, .ofScalar 3] rowAndNumber[0] oneTwo := by simp [HasValue, hzip]
  have hnumber : f.HasValue [oneTwo, .ofScalar 3] rowAndNumber[1] (.ofScalar 3) := by simp [HasValue, hzip]
  obtain ⟨hsplit, hdiagonal, hproject⟩ := f.blocks_spec 2 _ _ hnumbered hvalues
  exact ⟨f, hnumbered, hvalues, hsplit _ _ [1, 2] hrow,
    hdiagonal _ _ (.cons hrow (.cons hnumber (.cons hrow .nil))),
    hproject ⟨_, _, none, some rowAndNumber[0], [1, 1]⟩ _ _ _ _ rfl hrow hnumber rfl rfl⟩

end Func

end Lyapunov
