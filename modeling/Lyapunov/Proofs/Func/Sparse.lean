/-
Sparse matrices that are built from triplets. Adding a triplet changes the value of its place and of no other,
so each place of the result has the sum of the values that were given for it; places inside the matrix are
stored exactly when a value was given. A function does not tell a sparse argument from its dense form.
-/
import Mathlib.Algebra.BigOperators.Group.List.Basic
import Mathlib.Data.Finset.Card
import Mathlib.Data.List.Forall2
import Lyapunov.Proofs.Exact.Scalar
import Lyapunov.Proofs.Func.Nodes

namespace Lyapunov

variable {α : Type}

namespace SparseEntry

/-- Whether the entry stands in row `i` and column `j`. -/
def isAt (i j : Nat) (e : SparseEntry α) : Bool := e.row == i && e.col == j

theorem isAt_iff {i j : Nat} {e : SparseEntry α} : e.isAt i j = true ↔ e.row = i ∧ e.col = j := by
  rw [isAt, Bool.and_eq_true, beq_iff_eq, beq_iff_eq]

/-- The value stored for a place. -/
def value? (entries : List (SparseEntry α)) (i j : Nat) : Option α := (entries.find? (isAt i j)).map (·.value)

theorem value?_cons (e : SparseEntry α) (entries : List (SparseEntry α)) (i j : Nat) :
    value? (e :: entries) i j = if e.row = i ∧ e.col = j then some e.value else value? entries i j := by
  rw [value?, List.find?_cons]
  split
  · rename_i h
    rw [if_pos (isAt_iff.1 h)]
    rfl
  · rename_i h
    rw [if_neg fun hat => by rw [isAt_iff.2 hat] at h; cases h]
    rfl

section Ordered

variable {e : SparseEntry α} {entries : List (SparseEntry α)} {i j : Nat}

/-- Behind an entry no other one stands in its place. -/
theorem not_isAt_of_before (h : ∀ y ∈ entries, e.Before y) : ∀ y ∈ entries, ¬ y.isAt e.row e.col = true := by
  intro y hy
  rw [isAt_iff]
  have := h y hy
  unfold Before at this
  omega

theorem value?_of_before (h : ∀ y ∈ entries, e.Before y) : value? entries e.row e.col = none := by
  rw [value?, List.find?_eq_none.2 (not_isAt_of_before h)]
  rfl

variable (h : entries.Pairwise Before)

include h

/-- The stored values are those of the entries. -/
theorem value?_eq_some_iff {x : α} : value? entries i j = some x ↔ ⟨i, j, x⟩ ∈ entries := by
  induction entries with
  | nil => simp [value?]
  | cons e entries ih =>
    rw [List.pairwise_cons] at h
    rw [value?_cons, List.mem_cons]
    split
    · rename_i hat
      obtain ⟨rfl, rfl⟩ := hat
      have hrest : ⟨e.row, e.col, x⟩ ∉ entries := fun hmem =>
        not_isAt_of_before h.1 _ hmem (isAt_iff.2 ⟨rfl, rfl⟩)
      obtain ⟨r, c, y⟩ := e
      rw [or_iff_left hrest, Option.some.injEq, SparseEntry.mk.injEq]
      exact ⟨fun hx => ⟨rfl, rfl, hx.symm⟩, fun hx => hx.2.2.symm⟩
    · rename_i hat
      rw [ih h.2, or_iff_right]
      rintro rfl
      exact hat ⟨rfl, rfl⟩

/-- At most one entry stands in a place. -/
theorem filter_isAt : (entries.filter (isAt i j)).map (·.value) = (value? entries i j).toList := by
  induction entries with
  | nil => rfl
  | cons e entries ih =>
    rw [List.pairwise_cons] at h
    rw [List.filter_cons, value?_cons]
    by_cases hat : e.row = i ∧ e.col = j
    · rw [if_pos (isAt_iff.2 hat), if_pos hat, List.map_cons]
      obtain ⟨rfl, rfl⟩ := hat
      rw [List.filter_eq_nil_iff.2 (not_isAt_of_before h.1)]
      rfl
    · rw [if_neg (mt isAt_iff.1 hat), if_neg hat, ih h.2]

/-- Inserting an entry adds to the value of its place, and to no other. -/
theorem value?_insert [Add α] (x : SparseEntry α) (i j : Nat) :
    value? (insert x entries) i j =
      if x.row = i ∧ x.col = j then some ((value? entries i j).elim x.value (· + x.value))
      else value? entries i j := by
  induction entries with
  | nil => exact value?_cons x [] i j
  | cons y rest ih =>
    rw [List.pairwise_cons] at h
    unfold insert
    split
    · rename_i hxy
      rw [value?_cons]
      split
      · rename_i hat
        obtain ⟨rfl, rfl⟩ := hat
        have hbefore : ∀ z ∈ y :: rest, x.Before z :=
          List.forall_mem_cons.2 ⟨hxy, fun z hz => hxy.trans (h.1 z hz)⟩
        rw [value?_of_before hbefore]
        rfl
      · rfl
    rename_i hxy
    split
    · rename_i hyx
      rw [value?_cons, value?_cons, ih h.2]
      by_cases hat : y.row = i ∧ y.col = j
      · have hx : ¬ (x.row = i ∧ x.col = j) := by
          unfold Before at hyx
          omega
        simp only [if_pos hat, if_neg hx]
      · simp only [if_neg hat]
    · rename_i hyx
      have hplace : y.row = x.row ∧ y.col = x.col := by
        unfold Before at hxy hyx
        omega
      rw [value?_cons, value?_cons, hplace.1, hplace.2]
      split <;> rfl

end Ordered

end SparseEntry

namespace Sparse

/-! ## Stored values -/

/-- The value stored for a place of the matrix. -/
def value? (m : Sparse α) (i j : Nat) : Option α := SparseEntry.value? m.entries i j

theorem value?_eq_some_iff {m : Sparse α} {i j : Nat} {x : α} :
    m.value? i j = some x ↔ ⟨i, j, x⟩ ∈ m.entries :=
  SparseEntry.value?_eq_some_iff m.ordered

/-- Different entries stand in different places. -/
theorem nodup_places (m : Sparse α) : (m.entries.map fun e => (e.row, e.col)).Nodup := by
  rw [List.nodup_iff_pairwise_ne, List.pairwise_map]
  refine m.ordered.imp fun {x y} h hplace => ?_
  obtain ⟨hrow, hcol⟩ := Prod.mk.inj hplace
  unfold SparseEntry.Before at h
  omega

theorem toDense_eq [AddMonoid α] (m : Sparse α) :
    m.toDense = .ofFn m.rows m.cols fun i j => (m.value? i j).getD 0 := by
  have hentry (i j : Nat) :
      (m.entries.filter (SparseEntry.isAt i j)).foldl (fun s e => s + e.value) 0 = (m.value? i j).getD 0 := by
    rw [← List.foldl_map (f := SparseEntry.value) (g := (· + ·)), SparseEntry.filter_isAt m.ordered]
    show (m.value? i j).toList.foldl (· + ·) 0 = _
    cases m.value? i j with
    | none => rfl
    | some x => exact zero_add x
  exact congrArg (Dense.ofFn m.rows m.cols) (funext fun i => funext (hentry i))

/-! ## Triplets -/

section Triplets

/-- The values that the triplets give for a place. -/
def given (triplets : List (Nat × Nat × α)) (i j : Nat) : List α :=
  (triplets.filter fun t => t.1 == i && t.2.1 == j).map (·.2.2)

/-- The places inside a matrix that the triplets give values for. -/
def givenPlaces (rows cols : Nat) (triplets : List (Nat × Nat × α)) : Finset (Nat × Nat) :=
  (triplets.map fun t => (t.1, t.2.1)).toFinset.filter fun p => p.1 < rows ∧ p.2 < cols

theorem given_cons (r c : Nat) (x : α) (triplets : List (Nat × Nat × α)) (i j : Nat) :
    given ((r, c, x) :: triplets) i j =
      if r = i ∧ c = j then x :: given triplets i j else given triplets i j := by
  rw [given, List.filter_cons]
  by_cases h : r = i ∧ c = j
  · rw [if_pos h, if_pos (by simpa using h)]
    rfl
  · rw [if_neg h, if_neg (by simpa using h)]
    rfl

theorem given_ne_nil_iff {triplets : List (Nat × Nat × α)} {i j : Nat} :
    given triplets i j ≠ [] ↔ ∃ x, (i, j, x) ∈ triplets := by
  rw [Ne, given, List.map_eq_nil_iff, List.filter_eq_nil_iff]
  simp

theorem mem_givenPlaces {rows cols : Nat} {triplets : List (Nat × Nat × α)} {i j : Nat} :
    (i, j) ∈ givenPlaces rows cols triplets ↔ i < rows ∧ j < cols ∧ given triplets i j ≠ [] := by
  rw [given_ne_nil_iff, givenPlaces, Finset.mem_filter, List.mem_toFinset, List.mem_map]
  simp only [Prod.mk.injEq, Prod.exists]
  constructor
  · rintro ⟨⟨_, _, x, hx, rfl, rfl⟩, hi, hj⟩
    exact ⟨hi, hj, x, hx⟩
  · rintro ⟨hi, hj, x, hx⟩
    exact ⟨⟨i, j, x, hx, rfl, rfl⟩, hi, hj⟩

theorem shape_accumulate [Add α] (m : Sparse α) (r c : Nat) (x : α) : (m.accumulate r c x).shape = m.shape := by
  unfold accumulate
  split <;> rfl

variable [AddMonoid α]

/-- A triplet adds to the value of its place, if it is inside the matrix, and to no other. -/
theorem value?_accumulate (m : Sparse α) (r c : Nat) (x : α) {i j : Nat} (hi : i < m.rows) (hj : j < m.cols) :
    (m.accumulate r c x).value? i j =
      if r = i ∧ c = j then some ((m.value? i j).getD 0 + x) else m.value? i j := by
  have hsum : (m.value? i j).elim x (· + x) = (m.value? i j).getD 0 + x := by
    cases m.value? i j with
    | none => exact (zero_add x).symm
    | some y => rfl
  unfold accumulate
  split
  · rw [← hsum]
    exact SparseEntry.value?_insert m.ordered ⟨r, c, x⟩ i j
  · rename_i hout
    rw [if_neg]
    rintro ⟨rfl, rfl⟩
    exact hout ⟨hi, hj⟩

/-- Triplets add all the values that they give for a place. -/
theorem value?_foldl_accumulate (triplets : List (Nat × Nat × α)) (m : Sparse α) {i j : Nat} (hi : i < m.rows)
    (hj : j < m.cols) : (triplets.foldl (fun m (r, c, x) => m.accumulate r c x) m).value? i j =
      if given triplets i j = [] then m.value? i j else some ((m.value? i j).getD 0 + (given triplets i j).sum) := by
  -- by induction on the triplets, with any matrix to start from
  induction triplets generalizing m with
  | nil => rfl
  | cons t triplets ih =>
    obtain ⟨r, c, x⟩ := t
    have hshape := shape_accumulate m r c x
    have hrows : (m.accumulate r c x).rows = m.rows := congrArg Shape.rows hshape
    have hcols : (m.accumulate r c x).cols = m.cols := congrArg Shape.cols hshape
    rw [List.foldl_cons, ih _ (hrows ▸ hi) (hcols ▸ hj), value?_accumulate m r c x hi hj, given_cons]
    by_cases hat : r = i ∧ c = j
    · rw [if_pos hat, if_pos hat, if_neg (List.cons_ne_nil _ _), List.sum_cons]
      split
      · rename_i hnil
        rw [hnil, List.sum_nil, add_zero]
      · rw [Option.getD_some, add_assoc]
    · rw [if_neg hat, if_neg hat]

variable (rows cols : Nat) (rowOf colOf : List Nat) (values : List α)

theorem shape_ofTriplets : (ofTriplets rows cols rowOf colOf values).shape = ⟨rows, cols⟩ := by
  unfold ofTriplets
  have hfold (triplets : List (Nat × Nat × α)) (m : Sparse α) :
      (triplets.foldl (fun m (r, c, x) => m.accumulate r c x) m).shape = m.shape := by
    induction triplets generalizing m with
    | nil => rfl
    | cons t triplets ih => exact (ih _).trans (shape_accumulate m t.1 t.2.1 t.2.2)
  exact hfold _ (empty rows cols)

theorem rows_ofTriplets : (ofTriplets rows cols rowOf colOf values).rows = rows :=
  congrArg Shape.rows (shape_ofTriplets rows cols rowOf colOf values)

theorem cols_ofTriplets : (ofTriplets rows cols rowOf colOf values).cols = cols :=
  congrArg Shape.cols (shape_ofTriplets rows cols rowOf colOf values)

theorem value?_ofTriplets {i j : Nat} (hi : i < rows) (hj : j < cols) :
    (ofTriplets rows cols rowOf colOf values).value? i j =
      if given (rowOf.zip (colOf.zip values)) i j = [] then none
      else some (given (rowOf.zip (colOf.zip values)) i j).sum := by
  have h := value?_foldl_accumulate (rowOf.zip (colOf.zip values)) (empty rows cols) hi hj
  have hempty : (empty rows cols : Sparse α).value? i j = none := rfl
  rwa [hempty, Option.getD_none, zero_add] at h

/-- The entries are those of the places inside the matrix that values are given for, with their sums. -/
theorem mem_entries_ofTriplets {i j : Nat} {x : α} :
    ⟨i, j, x⟩ ∈ (ofTriplets rows cols rowOf colOf values).entries ↔
      (i, j) ∈ givenPlaces rows cols (rowOf.zip (colOf.zip values)) ∧
        x = (given (rowOf.zip (colOf.zip values)) i j).sum := by
  rw [mem_givenPlaces]
  constructor
  · intro h
    obtain ⟨hi, hj⟩ := (ofTriplets rows cols rowOf colOf values).inside _ h
    rw [rows_ofTriplets] at hi
    rw [cols_ofTriplets] at hj
    rw [← value?_eq_some_iff, value?_ofTriplets rows cols rowOf colOf values hi hj] at h
    split at h
    · cases h
    · rename_i hne
      exact ⟨⟨hi, hj, hne⟩, (Option.some.inj h).symm⟩
  · rintro ⟨⟨hi, hj, hne⟩, rfl⟩
    rw [← value?_eq_some_iff, value?_ofTriplets rows cols rowOf colOf values hi hj, if_neg hne]

theorem nnz_ofTriplets : (ofTriplets rows cols rowOf colOf values).nnz =
    (givenPlaces rows cols (rowOf.zip (colOf.zip values))).card := by
  have hplaces : ((ofTriplets rows cols rowOf colOf values).entries.map fun e => (e.row, e.col)).toFinset =
      givenPlaces rows cols (rowOf.zip (colOf.zip values)) := by
    ext ⟨i, j⟩
    rw [List.mem_toFinset, List.mem_map]
    constructor
    · rintro ⟨⟨r, c, x⟩, he, hplace⟩
      cases hplace
      exact ((mem_entries_ofTriplets ..).1 he).1
    · exact fun h => ⟨_, (mem_entries_ofTriplets ..).2 ⟨h, rfl⟩, rfl⟩
  rw [← hplaces, List.toFinset_card_of_nodup (nodup_places _), List.length_map]
  rfl

/-- The dense form has in each place the sum of all values that are given for it. -/
theorem toDense_ofTriplets : (ofTriplets rows cols rowOf colOf values).toDense =
    .ofFn rows cols fun i j => (given (rowOf.zip (colOf.zip values)) i j).sum := by
  rw [toDense_eq, rows_ofTriplets, cols_ofTriplets]
  refine Dense.ext_get rfl rfl fun i j hi hj => ?_
  rw [Dense.rows_ofFn] at hi
  rw [Dense.cols_ofFn] at hj
  rw [Dense.get_ofFn _ hi hj, Dense.get_ofFn _ hi hj, value?_ofTriplets rows cols rowOf colOf values hi hj]
  split
  · rename_i hnil
    rw [hnil]
    rfl
  · rfl

/-- The matrix of the given shape is the sum of the triplets: it stores the places inside it that are given,
each once and in order, and has the sums of their values. -/
structure IsSumOf (m : Sparse α) (rows cols : Nat) (triplets : List (Nat × Nat × α)) : Prop where
  shape : m.shape = ⟨rows, cols⟩
  ordered : m.entries.Pairwise SparseEntry.Before
  inside : ∀ e ∈ m.entries, e.row < rows ∧ e.col < cols
  stored : ∀ i j, (∃ e ∈ m.entries, e.row = i ∧ e.col = j) ↔ i < rows ∧ j < cols ∧ ∃ x, (i, j, x) ∈ triplets
  nnz : m.nnz = (givenPlaces rows cols triplets).card
  value : ∀ e ∈ m.entries, e.value = (given triplets e.row e.col).sum
  toDense : m.toDense = .ofFn rows cols fun i j => (given triplets i j).sum

theorem isSumOf_ofTriplets :
    (ofTriplets rows cols rowOf colOf values).IsSumOf rows cols (rowOf.zip (colOf.zip values)) where
  shape := shape_ofTriplets rows cols rowOf colOf values
  ordered := (ofTriplets rows cols rowOf colOf values).ordered
  inside e he := by
    obtain ⟨hi, hj, -⟩ := mem_givenPlaces.1 ((mem_entries_ofTriplets ..).1 he).1
    exact ⟨hi, hj⟩
  stored i j := by
    rw [← given_ne_nil_iff, ← mem_givenPlaces]
    constructor
    · rintro ⟨e, he, rfl, rfl⟩
      exact ((mem_entries_ofTriplets ..).1 he).1
    · exact fun h => ⟨_, (mem_entries_ofTriplets ..).2 ⟨h, rfl⟩, rfl, rfl⟩
  nnz := nnz_ofTriplets rows cols rowOf colOf values
  value e he := ((mem_entries_ofTriplets ..).1 he).2
  toDense := toDense_ofTriplets rows cols rowOf colOf values

end Triplets

end Sparse

/-! ## Sparse arguments -/

section Arguments

variable [Scalar α]

/-- Evaluation reads the dense forms of the arguments only. -/
theorem Func.eval_of_toDense_eq (f : Func α) {args args' : List (Argument α)}
    (h : args.map (·.toDense) = args'.map (·.toDense)) : f.eval args = f.eval args' := by
  have hshapes : args.map (·.shape) = args'.map (·.shape) := (map_shape_toDense h).trans (map_shape_toDense rfl).symm
  unfold eval
  rw [checkArguments_of_shapes_eq hshapes, h]

/-- The same argument, or the dense form of a sparse one. -/
inductive Argument.DenseFormOf : Argument α → Argument α → Prop
  | same (x : Argument α) : DenseFormOf x x
  | sparse (m : Sparse α) : DenseFormOf (.dense m.toDense) (.sparse m)

theorem Func.eval_denseForm (f : Func α) {args args' : List (Argument α)}
    (h : List.Forall₂ Argument.DenseFormOf args' args) : f.eval args = f.eval args' := by
  refine f.eval_of_toDense_eq ?_
  induction h with
  | nil => rfl
  | cons hx _ ih =>
    rw [List.map_cons, List.map_cons, ih]
    cases hx <;> rfl

end Arguments

/-- Sums of triplets in exact arithmetic, as matrices and as arguments. -/
theorem Sparse.ofTriplets_spec {K : Type} [ExactScalar K] (rows cols : Nat) (rowOf colOf : List Nat)
    (values : List K) :
    (ofTriplets rows cols rowOf colOf values).IsSumOf rows cols (rowOf.zip (colOf.zip values)) ∧
    (∀ i < rows, ∀ j < cols, (ofTriplets rows cols rowOf colOf values).toDense.get i j =
      (given (rowOf.zip (colOf.zip values)) i j).sum) ∧
    ∀ (f : Func K) (args args' : List (Argument K)), List.Forall₂ Argument.DenseFormOf args' args →
      f.eval args = f.eval args' := by
  refine ⟨isSumOf_ofTriplets rows cols rowOf colOf values, fun i hi j hj => ?_,
    fun f args args' h => f.eval_denseForm h⟩
  rw [toDense_ofTriplets, Dense.get_ofFn _ hi hj]

/-- Values that cancel are stored as a zero, and a place outside the matrix is not stored. -/
theorem Sparse.ofTriplets_cancelled :
    (ofTriplets 2 2 [0, 0, 5, 1, 1] [1, 1, 0, 0, 0, 7] [3 / 2, 5 / 2, 9, 4, -4] : Sparse ℚ).nnz = 2 ∧
    (ofTriplets 2 2 [0, 0, 5, 1, 1] [1, 1, 0, 0, 0, 7] [3 / 2, 5 / 2, 9, 4, -4] : Sparse ℚ).toDense.get 0 1 = 4 ∧
    (ofTriplets 2 2 [0, 0, 5, 1, 1] [1, 1, 0, 0, 0, 7] [3 / 2, 5 / 2, 9, 4, -4] : Sparse ℚ).toDense.get 1 0 = 0 ∧
    ∃ (f : Func ℚ) (values : List (Dense ℚ)), f.eval [.scalar 3] = .ok values ∧
      f.eval [.sparse (ofTriplets 1 1 [0, 0, 4] [0, 0, 0] [1, 2, 8])] = .ok values := by
  obtain ⟨hsum, hget, heval⟩ :=
    ofTriplets_spec (K := ℚ) 2 2 [0, 0, 5, 1, 1] [1, 1, 0, 0, 0, 7] [3 / 2, 5 / 2, 9, 4, -4]
  obtain ⟨f, -, -, -, -, values, hvalues⟩ := Func.exists_square
  refine ⟨hsum.nnz.trans (by decide), (hget 0 (by decide) 1 (by decide)).trans (by decide +kernel),
    (hget 1 (by decide) 0 (by decide)).trans (by decide +kernel), f, values, hvalues, ?_⟩
  have hthree : (ofTriplets 1 1 [0, 0, 4] [0, 0, 0] [1, 2, 8] : Sparse ℚ).toDense = .ofScalar 3 := by
    rw [toDense_ofTriplets]
    refine Dense.ext_get rfl rfl fun i j hi hj => ?_
    obtain rfl : i = 0 := Nat.lt_one_iff.1 hi
    obtain rfl : j = 0 := Nat.lt_one_iff.1 hj
    decide +kernel
  have hscalar : f.eval [.dense (.ofScalar 3)] = f.eval [.scalar 3] := f.eval_of_toDense_eq rfl
  rw [heval f _ _ (.cons (.sparse _) .nil), hthree, hscalar, hvalues]

end Lyapunov
