/-
Linear systems in exact arithmetic. Elimination either returns a solution or a column with an entry that
has an inverse which the matrix sends to entries without one, and which of the two does not depend on the
right-hand side. So a matrix with which it succeeds has an inverse on either side: its solutions are
unique, and it succeeds with the transpose as well.
-/
import Mathlib.Tactic.LinearCombination
import Lyapunov.Dense.Solve
import Lyapunov.Proofs.Exact.Dense
import Lyapunov.Proofs.Exact.Local
import Lyapunov.Proofs.Tape.Value

namespace Lyapunov

open Finset IsLocalRing

section

variable {R : Type} [LocalScalar R]

namespace Dense

/-! ## The pivot -/

theorem pivotRow_lt (m : Dense R) (n : Nat) : m.pivotRow (n + 1) < n + 1 := by
  induction n with
  | zero => rw [pivotRow]; split <;> exact Nat.zero_lt_one
  | succ n ih =>
    rw [pivotRow]
    split <;> omega

/-- The pivot has no inverse only in a column whose entries have none. -/
theorem get_mem_of_pivotRow {m : Dense R} : ∀ {n : Nat}, m.get (m.pivotRow n) 0 ∈ maximalIdeal R →
    ∀ i < n, m.get i 0 ∈ maximalIdeal R
  | 0, _, i, hi => absurd hi (Nat.not_lt_zero i)
  | n + 1, h, i, hi => by
    rw [pivotRow] at h
    split at h
    · rename_i hlt
      cases hlt.symm.trans (Scalar.not_absLt_of_mem _ h)
    · rename_i hlt
      rcases Nat.lt_succ_iff_lt_or_eq.1 hi with hi | rfl
      · exact get_mem_of_pivotRow h i hi
      · by_contra hunit
        exact hlt (Scalar.absLt_of_not_mem h hunit)

/-- Every row other than the pivot remains. -/
theorem exists_remainingRow {n pivot r : Nat} (hp : pivot < n + 1) (hr : r < n + 1) (hne : r ≠ pivot) :
    ∃ i < n, remainingRow pivot i = r := by
  rcases Nat.eq_zero_or_pos r with rfl | h0
  · exact ⟨pivot - 1, by omega, if_pos (by omega)⟩
  · refine ⟨r - 1, by omega, ?_⟩
    unfold remainingRow
    rw [if_neg (by omega)]
    omega

/-! ## Back substitution -/

/-- A solution of the reduced system, extended by the unknown of the pivot row, solves the system. -/
theorem back_substitute {m : Dense R} {n pivot : Nat} (hp : pivot < n + 1)
    (h0 : m.get pivot 0 ∉ maximalIdeal R) {b x : Nat → R}
    (h : ∀ i < n, ∑ k ∈ range n, (m.get (remainingRow pivot i) (k + 1) -
        m.get (remainingRow pivot i) 0 * (1 / m.get pivot 0) * m.get pivot (k + 1)) * x (k + 1) =
      b (remainingRow pivot i) - m.get (remainingRow pivot i) 0 * (1 / m.get pivot 0) * b pivot)
    (hx : x 0 = (b pivot - ∑ k ∈ range n, m.get pivot (k + 1) * x (k + 1)) / m.get pivot 0) :
    ∀ r < n + 1, ∑ k ∈ range (n + 1), m.get r k * x k = b r := by
  have hpivot : m.get pivot 0 * x 0 = b pivot - ∑ k ∈ range n, m.get pivot (k + 1) * x (k + 1) := by
    rw [hx, mul_comm, Scalar.div_mul_cancel _ h0]
  intro r hr
  rw [sum_range_succ']
  by_cases hrp : r = pivot
  · rw [hrp, hpivot, add_sub_cancel]
  · obtain ⟨i, hi, rfl⟩ := exists_remainingRow hp hr hrp
    have hrow := h i hi
    simp only [sub_mul, sum_sub_distrib, mul_assoc, ← mul_sum] at hrow
    have hfactor : m.get (remainingRow pivot i) 0 * x 0 = m.get (remainingRow pivot i) 0 *
        (1 / m.get pivot 0 * (b pivot - ∑ k ∈ range n, m.get pivot (k + 1) * x (k + 1))) := by
      rw [← hpivot, ← mul_assoc (1 / m.get pivot 0), Scalar.div_mul_cancel _ h0, one_mul]
    rw [hfactor]
    linear_combination hrow

/-! ## Elimination -/

/-- Whether elimination succeeds depends on the matrix alone. -/
theorem isSome_eliminate (n : Nat) (m b c : Dense R) :
    (eliminate n m b).isSome = (eliminate n m c).isSome := by
  induction n generalizing m b c with
  | zero => rfl
  | succ n ih =>
    rw [eliminate, eliminate]
    dsimp only
    split
    · rfl
    · rw [Option.isSome_map, Option.isSome_map]
      exact ih _ _ _

/-- The rows of the reduced system. -/
theorem sum_reduced {n pivot : Nat} (m : Dense R) (x : Nat → R) {i : Nat} (hi : i < n) :
    ∑ k ∈ range n, (ofFn n n fun i j => m.get (remainingRow pivot i) (j + 1) -
        (ofFn n 1 fun i _ => m.get (remainingRow pivot i) 0 * (1 / m.get pivot 0)).get i 0 *
          m.get pivot (j + 1)).get i k * x k =
      ∑ k ∈ range n, (m.get (remainingRow pivot i) (k + 1) -
        m.get (remainingRow pivot i) 0 * (1 / m.get pivot 0) * m.get pivot (k + 1)) * x k := by
  refine sum_congr rfl fun k hk => ?_
  rw [get_ofFn _ hi (mem_range.1 hk), get_ofFn _ hi Nat.zero_lt_one]

/-- A result of elimination solves the system. -/
theorem eliminate_eq_some {n : Nat} {m b x : Dense R} (h : eliminate n m b = some x) :
    x.shape = ⟨n, b.cols⟩ ∧ ∀ i < n, ∀ j < b.cols,
      ∑ k ∈ range n, m.get i k * x.get k j = b.get i j := by
  induction n generalizing m b x with
  | zero => cases h; exact ⟨rfl, by simp⟩
  | succ n ih =>
    rw [eliminate] at h
    dsimp only at h
    split at h
    · cases h
    · rename_i h0
      rw [Scalar.beq_zero_iff] at h0
      obtain ⟨y, hy, rfl⟩ := Option.map_eq_some_iff.1 h
      obtain ⟨-, hrows⟩ := ih hy
      refine ⟨rfl, fun r hr j hj => ?_⟩
      have hp := m.pivotRow_lt n
      refine back_substitute hp h0 (b := fun i => b.get i j) (x := fun k => Dense.get _ k j)
        (fun i hi => ?_) ?_ r hr
      · have hrow := hrows i hi j hj
        rw [sum_reduced _ (y.get · j) hi, get_ofFn _ hi hj, get_ofFn _ hi Nat.zero_lt_one] at hrow
        rw [← hrow]
        refine sum_congr rfl fun k hk => ?_
        have hk := mem_range.1 hk
        rw [get_ofFn _ (by omega) hj, if_neg (by omega), Nat.add_sub_cancel]
      · rw [get_ofFn _ (Nat.succ_pos n) hj, if_pos rfl, sumBelow_eq_sum]
        refine congrArg (fun t => (b.get (m.pivotRow (n + 1)) j - t) / _) ?_
        refine sum_congr rfl fun k hk => ?_
        have hk := mem_range.1 hk
        rw [get_ofFn _ (by omega) hj, if_neg (by omega), Nat.add_sub_cancel]

/-- The unknowns of the reduced system with the one that was eliminated in front. -/
def prepend (a : R) (z : Nat → R) : Nat → R
  | 0 => a
  | k + 1 => z k

/-- Where elimination fails, the matrix sends a column with an entry that has an inverse to one without
such entries. -/
theorem eliminate_eq_none {n : Nat} {m b : Dense R} (h : eliminate n m b = none) :
    ∃ z : Nat → R, (∃ k < n, z k ∉ maximalIdeal R) ∧
      ∀ i < n, ∑ k ∈ range n, m.get i k * z k ∈ maximalIdeal R := by
  induction n generalizing m b with
  | zero => cases h
  | succ n ih =>
    rw [eliminate] at h
    dsimp only at h
    split at h
    · rename_i h0
      rw [Scalar.beq_zero_iff] at h0
      refine ⟨prepend 1 fun _ => 0, ⟨0, Nat.succ_pos n, ?_⟩, fun i hi => ?_⟩
      · exact (Ideal.ne_top_iff_one _).1 (maximalIdeal.isMaximal R).ne_top
      · rw [sum_range_succ', sum_eq_zero fun k _ => mul_zero _, zero_add, prepend, mul_one]
        exact get_mem_of_pivotRow h0 i hi
    · rename_i h0
      rw [Scalar.beq_zero_iff] at h0
      obtain ⟨z, ⟨k, hk, hz⟩, hrows⟩ := ih (Option.map_eq_none_iff.1 h)
      -- the extended column goes to what the reduced rows leave, and to zero in the pivot row
      let pivot := m.pivotRow (n + 1)
      let residue (r : Nat) : R := ∑ k ∈ range n,
        (m.get r (k + 1) - m.get r 0 * (1 / m.get pivot 0) * m.get pivot (k + 1)) * z k
      have hpivot : residue pivot = 0 := sum_eq_zero fun k _ => by
        rw [mul_comm (m.get pivot 0), Scalar.div_mul_cancel _ h0, one_mul, sub_self, zero_mul]
      have hresidue : ∀ r < n + 1, residue r ∈ maximalIdeal R := fun r hr => by
        by_cases hrp : r = pivot
        · rw [hrp, hpivot]
          exact Ideal.zero_mem _
        · obtain ⟨i, hi, rfl⟩ := exists_remainingRow (m.pivotRow_lt n) hr hrp
          have hrow := hrows i hi
          rwa [sum_reduced _ z hi] at hrow
      refine ⟨prepend ((0 - ∑ k ∈ range n, m.get pivot (k + 1) * z k) / m.get pivot 0) z,
        ⟨k + 1, by omega, hz⟩, fun r hr => ?_⟩
      rw [back_substitute (m.pivotRow_lt n) h0 (b := residue) (fun i hi => ?_) ?_ r hr]
      · exact hresidue r hr
      · rw [hpivot]
        rfl
      · rw [hpivot, mul_zero, sub_zero]
        rfl

/-! ## Solutions of square systems -/

/-- The solution of a square system that has one. -/
theorem solve?_eq_some {m b x : Dense R} (hm : m.rows = m.cols) (hb : m.rows = b.rows)
    (h : m.solve? b = some x) : x.shape = ⟨m.cols, b.cols⟩ ∧ m.mul x = b := by
  unfold solve? at h
  obtain ⟨hs, hrows⟩ := eliminate_eq_some h
  refine ⟨hm ▸ hs, ext_get hb (congrArg Shape.cols hs) fun i j hi hj => ?_⟩
  have hj : j < x.cols := hj
  rw [cols_eq (n := ofFn m.rows b.cols fun _ _ => (0 : R)) hs] at hj
  rw [get_mul', ← hm, hrows i hi j hj]

/-- A square matrix that sends only columns without invertible entries to such columns has solutions. -/
theorem exists_solve?_of_residues {m : Dense R} (hm : m.rows = m.cols)
    (h : ∀ z : Dense R, z.shape = ⟨m.cols, 1⟩ → (∀ i j, (m.mul z).get i j ∈ maximalIdeal R) →
      ∀ i j, z.get i j ∈ maximalIdeal R) (b : Dense R) : ∃ x, m.solve? b = some x := by
  cases hs : m.solve? b with
  | some x => exact ⟨x, rfl⟩
  | none =>
    obtain ⟨z, ⟨k, hk, hz⟩, hrows⟩ := eliminate_eq_none hs
    have hresidues := h (ofFn m.cols 1 fun i _ => z i) rfl fun i j => by
      by_cases hij : i < m.rows ∧ j < 1
      · rw [get_mul']
        refine (congrArg (· ∈ maximalIdeal R) ?_).mp (hrows i hij.1)
        rw [hm]
        exact sum_congr rfl fun k hk => by rw [get_ofFn _ (mem_range.1 hk) hij.2]
      · rw [get_outside hij]
        exact Ideal.zero_mem _
    have := hresidues k 0
    rw [get_ofFn _ (hm ▸ hk) Nat.zero_lt_one] at this
    exact absurd this hz

/-- A square matrix over a field that sends no column other than zero to zero has solutions. -/
theorem exists_solve?_of_kernel {K : Type} [ExactScalar K] {m : Dense K} (hm : m.rows = m.cols)
    (h : ∀ z : Dense K, z.shape = ⟨m.cols, 1⟩ → m.mul z = zero ⟨m.rows, 1⟩ → z = zero ⟨m.cols, 1⟩)
    (b : Dense K) : ∃ x, m.solve? b = some x := by
  refine exists_solve?_of_residues hm (fun z hz hresidues i j => ?_) b
  rw [h z hz (ext_get rfl (congrArg Shape.cols hz) fun i j _ _ => ?_), get_zero]
  · exact Ideal.zero_mem _
  · rw [get_zero, ← Ideal.mem_bot, ← IsLocalRing.maximalIdeal_eq_bot]
    exact hresidues i j

theorem exists_solve? {m b : Dense R} (h : ∃ x, m.solve? b = some x) (c : Dense R) :
    ∃ x, m.solve? c = some x := by
  rw [← Option.isSome_iff_exists] at h ⊢
  unfold solve? at h ⊢
  rwa [isSome_eliminate _ _ c b]

/-- If a square matrix has solutions then so has its transpose. -/
theorem exists_solve?_transpose {m b : Dense R} (hm : m.rows = m.cols)
    (h : ∃ x, m.solve? b = some x) (c : Dense R) : ∃ x, m.transpose.solve? c = some x := by
  obtain ⟨x, hx⟩ := exists_solve? h (identity m.rows)
  obtain ⟨hs, hmx⟩ := solve?_eq_some (b := identity m.rows) hm rfl hx
  refine exists_solve?_of_residues hm.symm (fun z hz hresidues i j => ?_) c
  have hz' : z.rows = m.rows := rows_of_shape hz
  have hleft : x.transpose.mul m.transpose = identity z.rows := by
    rw [← transpose_mul (rows_of_shape hs).symm, hmx, transpose_identity, hz']
  -- m has the right inverse x, so that z = (m x)' z = x' (m' z)
  have hzm : z = x.transpose.mul (m.transpose.mul z) := by rw [← mul_assoc', hleft, identity_mul]
  rw [hzm]
  by_cases hij : i < x.cols ∧ j < z.cols
  · rw [get_mul']
    exact sum_mem fun k _ => Ideal.mul_mem_left _ _ (hresidues k j)
  · rw [get_outside hij]
    exact Ideal.zero_mem _

/-- A square matrix with solutions sends different matrices to different matrices. -/
theorem mul_left_inj_of_solve? {m b y z : Dense R} (hm : m.rows = m.cols)
    (h : ∃ x, m.solve? b = some x) (hy : y.rows = m.cols) (hz : z.rows = m.cols)
    (hyz : m.mul y = m.mul z) : y = z := by
  obtain ⟨x, hx⟩ := exists_solve?_transpose hm h (identity m.cols)
  obtain ⟨hs, hmx⟩ := solve?_eq_some (m := m.transpose) (b := identity m.cols) hm.symm rfl hx
  have hleft : x.transpose.mul m = identity m.cols := by
    have := congrArg transpose hmx
    rwa [transpose_mul (rows_of_shape hs).symm, transpose_transpose, transpose_identity] at this
  calc y = (x.transpose.mul m).mul y := by rw [hleft, ← hy, identity_mul]
    _ = (x.transpose.mul m).mul z := by rw [mul_assoc', hyz, mul_assoc']
    _ = z := by rw [hleft, ← hz, identity_mul]

/-! ## The solution of an expression -/

/-- A system that has a solution has no columns on its right-hand side, or a matrix that elimination
succeeds with. -/
theorem exists_solution_iff {m b : Dense R} :
    (∃ x, solution m b = .ok x) ↔ b.cols = 0 ∨ (m.rows ≠ 0 ∧ ∃ x, m.solve? b = some x) := by
  unfold solution
  split
  · rename_i h; exact ⟨fun _ => .inl h, fun _ => ⟨_, rfl⟩⟩
  · rename_i hc
    split
    · rename_i hr
      constructor
      · rintro ⟨x, h⟩; cases h
      · rintro (h | ⟨h, -⟩); exacts [absurd h hc, absurd hr h]
    · rename_i hr
      cases hs : m.solve? b with
      | none =>
        constructor
        · rintro ⟨x, h⟩; cases h
        · rintro (h | ⟨-, x, h⟩); exacts [absurd h hc, absurd h (by simp)]
      | some x => exact ⟨fun _ => .inr ⟨hr, x, rfl⟩, fun _ => ⟨x, rfl⟩⟩

theorem solution_eq_ok {m b x : Dense R} (hm : m.rows = m.cols) (hb : m.rows = b.rows)
    (h : solution m b = .ok x) : x.shape = ⟨m.cols, b.cols⟩ ∧ m.mul x = b := by
  unfold solution at h
  split at h
  · rename_i hc
    cases h
    refine ⟨by rw [hc]; rfl, ext_get hb hc.symm fun i j _ hj => absurd hj (Nat.not_lt_zero j)⟩
  · split at h
    · cases h
    · split at h
      · rename_i hs; cases h; exact solve?_eq_some hm hb hs
      · cases h

/-- Where a square system has a solution, the matrix sends different matrices of its shape to different
matrices. -/
theorem solution_unique {m b y z : Dense R} (hm : m.rows = m.cols) (h : ∃ x, solution m b = .ok x)
    (hy : y.shape = ⟨m.cols, b.cols⟩) (hz : z.shape = ⟨m.cols, b.cols⟩) (hyz : m.mul y = m.mul z) :
    y = z := by
  rcases exists_solution_iff.1 h with hc | ⟨-, hs⟩
  · exact ext_get (rows_eq (hy.trans hz.symm)) (cols_eq (hy.trans hz.symm)) fun i j _ hj =>
      absurd hj (by rw [cols_of_shape hy, hc]; exact Nat.not_lt_zero j)
  · exact mul_left_inj_of_solve? hm hs (rows_of_shape hy) (rows_of_shape hz) hyz

/-- Whether a system has a solution depends on the matrix and the number of columns alone. -/
theorem exists_solution {m b c : Dense R} (h : ∃ x, solution m b = .ok x) (hc : c.cols = b.cols) :
    ∃ x, solution m c = .ok x := by
  rw [exists_solution_iff] at h ⊢
  rw [hc]
  exact h.imp_right fun ⟨hr, hs⟩ => ⟨hr, exists_solve? hs c⟩

theorem exists_solution_transpose {m b c : Dense R} (hm : m.rows = m.cols)
    (h : ∃ x, solution m b = .ok x) (hc : c.cols = b.cols) : ∃ x, solution m.transpose c = .ok x := by
  rw [exists_solution_iff] at h ⊢
  rw [hc]
  refine h.imp_right fun ⟨hr, hs⟩ => ⟨?_, exists_solve?_transpose hm hs c⟩
  rw [rows_transpose, ← hm]
  exact hr

end Dense

/-- The solution of a system that has one; without one, the matrix without entries. -/
def solutionD (m b : Dense R) : Dense R :=
  match solution m b with
  | .ok x => x
  | .error _ => Tape.noValue

/-- A system with the matrix of one that has a solution, and a right-hand side of the same shape, has a
solution. -/
theorem solutionD_spec {m b c v : Dense R} (hm : m.rows = m.cols) (hb : m.rows = b.rows)
    (h : solution m b = .ok v) (hc : c.shape = b.shape) :
    solution m c = .ok (solutionD m c) ∧ (solutionD m c).shape = ⟨m.cols, b.cols⟩ ∧
      m.mul (solutionD m c) = c := by
  obtain ⟨x, hx⟩ := Dense.exists_solution ⟨v, h⟩ (Dense.cols_eq hc)
  have heq : solutionD m c = x := by unfold solutionD; rw [hx]
  obtain ⟨hs, hmul⟩ := Dense.solution_eq_ok hm (hb.trans (Dense.rows_eq hc).symm) hx
  rw [heq]
  exact ⟨hx, Dense.cols_eq hc ▸ hs, hmul⟩

theorem solutionD_zero {m b v : Dense R} (hm : m.rows = m.cols) (hb : m.rows = b.rows)
    (h : solution m b = .ok v) : solutionD m (.zero b.shape) = .zero ⟨m.cols, b.cols⟩ := by
  obtain ⟨-, hs, hmul⟩ := solutionD_spec hm hb h (Dense.shape_zero b.shape)
  refine Dense.solution_unique hm ⟨v, h⟩ hs rfl (hmul.trans ?_)
  rw [Dense.mul_zero', hb]
  rfl

end

end Lyapunov
