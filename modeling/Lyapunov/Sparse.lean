/-
Sparse matrices as lists of entries, column by column and within a column by increasing row, at
most one for each place. They are built from lists of rows, columns and values: values given for
one place are added in the order of the lists, places outside the matrix are dropped, and a zero
that is given is kept.
-/
import Lyapunov.Dense.Basic

namespace Lyapunov

/-- One stored entry of a sparse matrix. -/
structure SparseEntry (α : Type) where
  row : Nat
  col : Nat
  value : α

namespace SparseEntry

variable {α : Type}

/-- The order of places: by column, then by row. -/
def Before (x y : SparseEntry α) : Prop := x.col < y.col ∨ x.col = y.col ∧ x.row < y.row

instance (x y : SparseEntry α) : Decidable (x.Before y) :=
  inferInstanceAs (Decidable (_ ∨ _ ∧ _))

theorem Before.trans {x y z : SparseEntry α} (h : x.Before y) (k : y.Before z) : x.Before z := by
  unfold Before at *
  omega

/-- Adds an entry to an ordered list; an entry already stored for its place takes the sum. -/
def insert [Add α] (x : SparseEntry α) : List (SparseEntry α) → List (SparseEntry α)
  | [] => [x]
  | y :: rest =>
    if x.Before y then x :: y :: rest
    else if y.Before x then y :: insert x rest
    else { y with value := y.value + x.value } :: rest

/-- The places of the list after an insertion are those before it and that of the new entry. -/
theorem place_mem_insert [Add α] {x z : SparseEntry α} {entries : List (SparseEntry α)}
    (h : z ∈ insert x entries) :
    (z.row = x.row ∧ z.col = x.col) ∨ ∃ y ∈ entries, z.row = y.row ∧ z.col = y.col := by
  induction entries with
  | nil => simp_all [insert]
  | cons y rest ih =>
    unfold insert at h
    split at h
    · simp only [List.mem_cons] at h ⊢
      rcases h with rfl | rfl | h
      · exact .inl ⟨rfl, rfl⟩
      · exact .inr ⟨z, .inl rfl, rfl, rfl⟩
      · exact .inr ⟨z, .inr h, rfl, rfl⟩
    · split at h
      · rcases List.mem_cons.1 h with rfl | h
        · exact .inr ⟨z, List.mem_cons_self, rfl, rfl⟩
        · rcases ih h with h | ⟨w, hw, h⟩
          · exact .inl h
          · exact .inr ⟨w, List.mem_cons_of_mem _ hw, h⟩
      · rcases List.mem_cons.1 h with rfl | h
        · exact .inr ⟨y, List.mem_cons_self, rfl, rfl⟩
        · exact .inr ⟨z, List.mem_cons_of_mem _ h, rfl, rfl⟩

theorem pairwise_insert [Add α] (x : SparseEntry α) {entries : List (SparseEntry α)}
    (h : entries.Pairwise Before) : (insert x entries).Pairwise Before := by
  induction entries with
  | nil => simp [insert]
  | cons y rest ih =>
    rw [List.pairwise_cons] at h
    unfold insert
    split
    · rename_i hxy
      rw [List.pairwise_cons, List.pairwise_cons]
      exact ⟨fun z hz => (List.mem_cons.1 hz).elim (· ▸ hxy) fun hz => hxy.trans (h.1 z hz), h⟩
    · rename_i hxy
      split
      · rename_i hyx
        rw [List.pairwise_cons]
        refine ⟨fun z hz => ?_, ih h.2⟩
        rcases place_mem_insert hz with ⟨hr, hc⟩ | ⟨w, hw, hr, hc⟩
        · unfold Before at *; omega
        · have := h.1 w hw; unfold Before at *; omega
      · rw [List.pairwise_cons]
        exact ⟨fun z hz => h.1 z hz, h.2⟩

end SparseEntry

/-- A sparse matrix: at most one entry for each place, in the order of places. -/
structure Sparse (α : Type) where
  rows : Nat
  cols : Nat
  entries : List (SparseEntry α)
  ordered : entries.Pairwise SparseEntry.Before
  inside : ∀ e ∈ entries, e.row < rows ∧ e.col < cols

namespace Sparse

variable {α : Type}

def shape (m : Sparse α) : Shape := ⟨m.rows, m.cols⟩

/-- The number of stored entries, zeros included. -/
def nnz (m : Sparse α) : Nat := m.entries.length

def empty (rows cols : Nat) : Sparse α := ⟨rows, cols, [], .nil, by simp⟩

/-- Adds `x` to the entry at a place; a place outside the matrix changes nothing. -/
def accumulate [Add α] (m : Sparse α) (row col : Nat) (x : α) : Sparse α :=
  if h : row < m.rows ∧ col < m.cols then
    { m with
      entries := SparseEntry.insert ⟨row, col, x⟩ m.entries
      ordered := SparseEntry.pairwise_insert _ m.ordered
      inside := fun e he => by
        rcases SparseEntry.place_mem_insert he with ⟨hr, hc⟩ | ⟨y, hy, hr, hc⟩
        · simpa [hr, hc] using h
        · simpa [hr, hc] using m.inside y hy }
  else
    m

/-- The sum of the triplets read off three lists in parallel, as far as the shortest reaches. -/
def ofTriplets [Add α] (rows cols : Nat) (rowOf colOf : List Nat) (values : List α) : Sparse α :=
  (rowOf.zip (colOf.zip values)).foldl (fun m (i, j, x) => m.accumulate i j x) (empty rows cols)

/-- The same matrix with its missing entries as zeros. -/
def toDense [Zero α] [Add α] (m : Sparse α) : Dense α :=
  .ofFn m.rows m.cols fun i j =>
    (m.entries.filter fun e => e.row == i && e.col == j).foldl (fun s e => s + e.value) 0

end Sparse

end Lyapunov
