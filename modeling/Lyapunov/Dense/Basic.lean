/-
Dense matrices. The entries are kept column by column, and `get` reads the entry at a row and a
column, zero outside the matrix. Every operation is given by the entries of its result through
`ofFn`, so `get_ofFn` and `ext_get` are all that later proofs need to know about the layout.
-/
import Lyapunov.Shape
import Lyapunov.Scalar

namespace Lyapunov

/-- A matrix whose entries are stored column by column. -/
structure Dense (α : Type) where
  rows : Nat
  cols : Nat
  entries : Array α
  size_entries : entries.size = rows * cols

namespace Dense

variable {α : Type}

def shape (m : Dense α) : Shape := ⟨m.rows, m.cols⟩

/-- The matrix with the given entry at each row and column. -/
def ofFn (rows cols : Nat) (f : Nat → Nat → α) : Dense α :=
  ⟨rows, cols, .ofFn fun k : Fin (rows * cols) => f (k % rows) (k / rows), by simp⟩

@[simp] theorem rows_ofFn (r c : Nat) (f : Nat → Nat → α) : (ofFn r c f).rows = r := rfl

@[simp] theorem cols_ofFn (r c : Nat) (f : Nat → Nat → α) : (ofFn r c f).cols = c := rfl

@[simp] theorem shape_ofFn (r c : Nat) (f : Nat → Nat → α) : (ofFn r c f).shape = ⟨r, c⟩ := rfl

/-- The values in column order, refused when their number is not that of the entries. -/
def ofColumns? (rows cols : Nat) (values : Array α) : Option (Dense α) :=
  if h : values.size = rows * cols then some ⟨rows, cols, values, h⟩ else none

/-! ## Reading entries -/

section Get

variable [Zero α]

/-- The entry at a place of the column by column order, zero past the end. -/
def entry (m : Dense α) (k : Nat) : α := m.entries.getD k 0

/-- The entry in row `i` and column `j`, zero outside the matrix. -/
def get (m : Dense α) (i j : Nat) : α := if i < m.rows then m.entry (i + j * m.rows) else 0

theorem place_lt {r c i j : Nat} (hi : i < r) (hj : j < c) : i + j * r < r * c := by
  calc i + j * r < r + j * r := Nat.add_lt_add_right hi _
    _ = (j + 1) * r := by rw [Nat.succ_mul, Nat.add_comm]
    _ ≤ c * r := Nat.mul_le_mul_right r hj
    _ = r * c := Nat.mul_comm c r

theorem entry_of_le {m : Dense α} {k : Nat} (h : m.rows * m.cols ≤ k) : m.entry k = 0 := by
  simp [entry, Array.getD, m.size_entries, Nat.not_lt.2 h]

theorem entry_ofFn {r c k : Nat} (f : Nat → Nat → α) (h : k < r * c) :
    (ofFn r c f).entry k = f (k % r) (k / r) := by
  simp [entry, ofFn, Array.getD, h]

theorem get_of_rows_le {m : Dense α} {i : Nat} (h : m.rows ≤ i) (j : Nat) : m.get i j = 0 :=
  if_neg (Nat.not_lt.2 h)

theorem get_of_cols_le {m : Dense α} {j : Nat} (h : m.cols ≤ j) (i : Nat) : m.get i j = 0 := by
  unfold get
  split
  · apply entry_of_le
    calc m.rows * m.cols = m.cols * m.rows := Nat.mul_comm _ _
      _ ≤ j * m.rows := Nat.mul_le_mul_right _ h
      _ ≤ i + j * m.rows := Nat.le_add_left _ _
  · rfl

/-- The entry in a place of the column order stands in the row and the column of that place. -/
theorem entry_eq_get (m : Dense α) (k : Nat) : m.entry k = m.get (k % m.rows) (k / m.rows) := by
  unfold get
  by_cases hr : 0 < m.rows
  · rw [if_pos (Nat.mod_lt k hr), Nat.mod_add_div']
  · have h0 : m.rows = 0 := by omega
    rw [if_neg (by simp [h0])]
    exact entry_of_le (by simp [h0])

theorem get_ofFn {r c i j : Nat} (f : Nat → Nat → α) (hi : i < r) (hj : j < c) :
    (ofFn r c f).get i j = f i j := by
  have hr : 0 < r := by omega
  rw [get, rows_ofFn, if_pos hi, entry_ofFn f (place_lt hi hj), Nat.add_mul_mod_self_right,
    Nat.mod_eq_of_lt hi, Nat.add_mul_div_right _ _ hr, Nat.div_eq_of_lt hi, Nat.zero_add]

/-- The entry of `ofFn` everywhere. -/
theorem get_ofFn_eq_ite (r c : Nat) (f : Nat → Nat → α) (i j : Nat) :
    (ofFn r c f).get i j = if i < r ∧ j < c then f i j else 0 := by
  split
  · rename_i h; exact get_ofFn f h.1 h.2
  · rename_i h
    by_cases hi : i < r
    · exact get_of_cols_le (Nat.not_lt.1 fun hj => h ⟨hi, hj⟩) i
    · exact get_of_rows_le (Nat.not_lt.1 hi) j

/-- Two matrices of one shape with the same entries are equal. -/
theorem ext_get {m n : Dense α} (hr : m.rows = n.rows) (hc : m.cols = n.cols)
    (h : ∀ i j, i < m.rows → j < m.cols → m.get i j = n.get i j) : m = n := by
  obtain ⟨r, c, a, ha⟩ := m
  obtain ⟨r', c', b, hb⟩ := n
  cases hr
  cases hc
  congr
  apply Array.ext (ha.trans hb.symm)
  intro k hka hkb
  have hlt : k < r * c := ha ▸ hka
  have hr : 0 < r := Nat.pos_of_ne_zero fun h0 => by simp [h0] at hlt
  have hi : k % r < r := Nat.mod_lt k hr
  have := h (k % r) (k / r) hi (Nat.div_lt_of_lt_mul hlt)
  simpa [get, entry, hi, Nat.mod_add_div', Array.getD, hka, hkb] using this

/-- The entries row by row. -/
def rowMajor (m : Dense α) : List α :=
  (List.range m.rows).flatMap fun i => (List.range m.cols).map (m.get i)

/-- The matrix with the given entries row by row; entries that are not given are zero. -/
def ofRowMajor (rows cols : Nat) (values : Array α) : Dense α :=
  ofFn rows cols fun i j => values.getD (i * cols + j) 0

end Get

/-! ## Constant matrices -/

/-- The matrix with one given entry. -/
def ofScalar (x : α) : Dense α := ofFn 1 1 fun _ _ => x

/-- The column with the given entries. -/
def ofList [Zero α] (values : List α) : Dense α :=
  let entries := values.toArray
  ofFn values.length 1 fun i _ => entries.getD i 0

def zero [Zero α] (s : Shape) : Dense α := ofFn s.rows s.cols fun _ _ => 0

def identity [Zero α] [One α] (n : Nat) : Dense α := ofFn n n fun i j => if i = j then 1 else 0

/-- The matrix of `n` rows whose `w` columns are the unit vectors from `offset` on. A product with
it takes `w` columns of a matrix. -/
def selector [Zero α] [One α] (n offset w : Nat) : Dense α :=
  ofFn n w fun i j => if i = offset + j then 1 else 0

/-! ## Operations -/

section Operations

variable [Zero α]

def add [Add α] (m n : Dense α) : Dense α := ofFn m.rows m.cols fun i j => m.get i j + n.get i j

def neg [Neg α] (m : Dense α) : Dense α := ofFn m.rows m.cols fun i j => -m.get i j

def scale [Mul α] (c : α) (m : Dense α) : Dense α := ofFn m.rows m.cols fun i j => m.get i j * c

def transpose (m : Dense α) : Dense α := ofFn m.cols m.rows fun i j => m.get j i

/-- The entries in column order under another shape of the same size. -/
def reshape (m : Dense α) (s : Shape) : Dense α :=
  ofFn s.rows s.cols fun i j => m.entry (i + j * s.rows)

/-- The matrix product; each entry sums over the inner index in order. -/
def mul [Add α] [Mul α] (m n : Dense α) : Dense α :=
  ofFn m.rows n.cols fun i j => sumBelow m.cols fun k => m.get i k * n.get k j

/-! ## Entries of the results -/

variable {m n : Dense α} {i j : Nat}

theorem get_add [Add α] (hi : i < m.rows) (hj : j < m.cols) :
    (m.add n).get i j = m.get i j + n.get i j :=
  get_ofFn _ hi hj

theorem get_scale [Mul α] (c : α) (hi : i < m.rows) (hj : j < m.cols) :
    (m.scale c).get i j = m.get i j * c :=
  get_ofFn _ hi hj

@[simp] theorem get_transpose (m : Dense α) (i j : Nat) : m.transpose.get i j = m.get j i := by
  rw [transpose, get_ofFn_eq_ite]
  split
  · rfl
  · rename_i h
    by_cases hj : j < m.rows
    · exact (get_of_cols_le (Nat.not_lt.1 fun hi => h ⟨hi, hj⟩) j).symm
    · exact (get_of_rows_le (Nat.not_lt.1 hj) i).symm

@[simp] theorem get_zero (s : Shape) (i j : Nat) : (zero s : Dense α).get i j = 0 := by
  rw [zero, get_ofFn_eq_ite, ite_self]

/-- The place of an entry in column order is kept. -/
theorem entry_reshape {s : Shape} {k : Nat} (h : k < s.size) : (m.reshape s).entry k = m.entry k := by
  rw [reshape, entry_ofFn _ h, Nat.mod_add_div']

end Operations

end Dense

end Lyapunov
