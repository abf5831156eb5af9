/-
Matrices of dual numbers. Such a matrix consists of a matrix of real parts and one of epsilon parts, and
since the square of epsilon is zero, the epsilon part of a product is given by the product rule.
-/
import Mathlib.Algebra.DualNumber
import Lyapunov.Proofs.Exact.Product

namespace Lyapunov

open TrivSqZeroExt

namespace Dense

variable {K : Type} [CommRing K]

/-- The matrix with the real parts `x` and the epsilon parts `dx`. -/
def dual (x dx : Dense K) : Dense (DualNumber K) :=
  ofFn x.rows x.cols fun i j => inl (x.get i j) + inr (dx.get i j)

/-- The real parts. -/
def re (m : Dense (DualNumber K)) : Dense K := ofFn m.rows m.cols fun i j => (m.get i j).fst

/-- The epsilon parts. -/
def ep (m : Dense (DualNumber K)) : Dense K := ofFn m.rows m.cols fun i j => (m.get i j).snd

@[simp] theorem shape_dual (x dx : Dense K) : (dual x dx).shape = x.shape := rfl

@[simp] theorem rows_dual (x dx : Dense K) : (dual x dx).rows = x.rows := rfl

@[simp] theorem cols_dual (x dx : Dense K) : (dual x dx).cols = x.cols := rfl

@[simp] theorem shape_re (m : Dense (DualNumber K)) : m.re.shape = m.shape := rfl

@[simp] theorem shape_ep (m : Dense (DualNumber K)) : m.ep.shape = m.shape := rfl

@[simp] theorem get_re (m : Dense (DualNumber K)) (i j : Nat) : m.re.get i j = (m.get i j).fst := by
  unfold re
  rw [get_ofFn_eq_ite]
  split
  · rfl
  · rename_i h; rw [get_outside h, fst_zero]

@[simp] theorem get_ep (m : Dense (DualNumber K)) (i j : Nat) : m.ep.get i j = (m.get i j).snd := by
  unfold ep
  rw [get_ofFn_eq_ite]
  split
  · rfl
  · rename_i h; rw [get_outside h, snd_zero]

@[simp] theorem fst_get_dual (x dx : Dense K) (i j : Nat) : ((dual x dx).get i j).fst = x.get i j := by
  unfold dual
  rw [get_ofFn_eq_ite]
  split
  · rw [fst_add, fst_inl, fst_inr, add_zero]
  · rename_i h; rw [get_outside h, fst_zero]

theorem snd_get_dual {x dx : Dense K} (h : dx.shape = x.shape) (i j : Nat) :
    ((dual x dx).get i j).snd = dx.get i j := by
  unfold dual
  rw [get_ofFn_eq_ite]
  split
  · rw [snd_add, snd_inl, snd_inr, zero_add]
  · rename_i hij
    rw [get_outside (m := dx) (by rwa [rows_eq h, cols_eq h]), snd_zero]

/-- A matrix is `dual x dx` when its entries have the real parts `x` and the epsilon parts `dx`. -/
theorem eq_dual {m : Dense (DualNumber K)} {x dx : Dense K} (hx : m.shape = x.shape)
    (hdx : dx.shape = x.shape) (hfst : ∀ i j, i < x.rows → j < x.cols → (m.get i j).fst = x.get i j)
    (hsnd : ∀ i j, i < x.rows → j < x.cols → (m.get i j).snd = dx.get i j) : m = dual x dx := by
  refine ext_get (rows_eq hx) (cols_eq hx) fun i j hi hj => ?_
  rw [rows_eq hx] at hi
  rw [cols_eq hx] at hj
  refine TrivSqZeroExt.ext ?_ ?_
  · rw [fst_get_dual, hfst i j hi hj]
  · rw [snd_get_dual hdx, hsnd i j hi hj]

@[simp] theorem dual_re_ep (m : Dense (DualNumber K)) : dual m.re m.ep = m := by
  have h : m = dual m.re m.ep :=
    eq_dual rfl rfl (fun i j _ _ => (get_re m i j).symm) fun i j _ _ => (get_ep m i j).symm
  exact h.symm

@[simp] theorem re_dual (x dx : Dense K) : (dual x dx).re = x :=
  ext_shape rfl fun i j => by rw [get_re, fst_get_dual]

theorem ep_dual {x dx : Dense K} (h : dx.shape = x.shape) : (dual x dx).ep = dx :=
  ext_shape h.symm fun i j => by rw [get_ep, snd_get_dual h]

theorem eq_of_dual_eq {x y dx dy : Dense K} (hx : dx.shape = x.shape) (hy : dy.shape = y.shape)
    (h : dual x dx = dual y dy) : x = y ∧ dx = dy := by
  constructor
  · rw [← re_dual x dx, h, re_dual]
  · rw [← ep_dual hx, h, ep_dual hy]

/-! ## Operations -/

variable {x y dx dy : Dense K}

theorem dual_neg (h : dx.shape = x.shape) : (dual x dx).neg = dual x.neg dx.neg :=
  eq_dual rfl h (fun i j _ _ => by rw [get_neg', fst_neg, fst_get_dual, get_neg'])
    fun i j _ _ => by rw [get_neg', snd_neg, snd_get_dual h, get_neg']

theorem dual_scale (h : dx.shape = x.shape) (c : K) :
    (dual x dx).scale (inl c) = dual (x.scale c) (dx.scale c) :=
  eq_dual rfl h (fun i j _ _ => by rw [get_scale', fst_mul, fst_get_dual, fst_inl, get_scale'])
    fun i j _ _ => by
      rw [get_scale', snd_mul, snd_get_dual h, fst_inl, snd_inl, smul_zero, zero_add, get_scale',
        op_smul_eq_smul, smul_eq_mul, mul_comm]

theorem dual_transpose (h : dx.shape = x.shape) :
    (dual x dx).transpose = dual x.transpose dx.transpose :=
  eq_dual rfl (congrArg Shape.transpose h)
    (fun i j _ _ => by rw [get_transpose, fst_get_dual, get_transpose])
    fun i j _ _ => by rw [get_transpose, snd_get_dual h, get_transpose]

theorem get_reshape (m : Dense K) {s : Shape} {i j : Nat} (hi : i < s.rows) (hj : j < s.cols) :
    (m.reshape s).get i j = m.get ((i + j * s.rows) % m.rows) ((i + j * s.rows) / m.rows) := by
  unfold reshape
  rw [get_ofFn _ hi hj, entry_eq_get]

theorem dual_reshape (h : dx.shape = x.shape) (s : Shape) :
    (dual x dx).reshape s = dual (x.reshape s) (dx.reshape s) :=
  eq_dual rfl rfl
    (fun i j hi hj => by
      rw [get_reshape _ hi hj, fst_get_dual, get_reshape _ hi hj, rows_dual])
    fun i j hi hj => by
      rw [get_reshape _ hi hj, snd_get_dual h, get_reshape _ hi hj, rows_dual, rows_eq h]

theorem dual_add (hx : dx.shape = x.shape) (hy : dy.shape = y.shape) (h : x.shape = y.shape) :
    (dual x dx).add (dual y dy) = dual (x.add y) (dx.add dy) :=
  eq_dual rfl hx
    (fun i j _ _ => by
      rw [get_add_of_shape (m := dual x dx) (n := dual y dy) h, fst_add, fst_get_dual,
        fst_get_dual, get_add_of_shape h])
    fun i j _ _ => by
      rw [get_add_of_shape (m := dual x dx) (n := dual y dy) h, snd_add, snd_get_dual hx,
        snd_get_dual hy, get_add_of_shape (hx.trans (h.trans hy.symm))]

/-- The product rule. -/
theorem dual_apply (p : Product) (hx : dx.shape = x.shape) (hy : dy.shape = y.shape) :
    p.apply (dual x dx) (dual y dy) =
      dual (p.apply x y) ((p.apply dx y).add (p.apply x dy)) := by
  have hs : (p.apply dx y).shape = (p.apply x dy).shape := by
    rw [Product.shape_apply, Product.shape_apply, hx, hy]
  refine eq_dual rfl (by rw [shape_add, Product.shape_apply, Product.shape_apply, hx])
    (fun i j hi hj => ?_) fun i j hi hj => ?_
  · rw [p.get_apply (dual x dx) (dual y dy) hi hj, p.get_apply _ _ hi hj, shape_dual, shape_dual]
    induction p.terms x.shape y.shape i j with
    | nil => rfl
    | cons t ts ih =>
      rw [List.map_cons, List.sum_cons, List.map_cons, List.sum_cons, fst_add, ih, fst_mul,
        fst_get_dual, fst_get_dual]
  · have hi' : i < (p.shape dx.shape y.shape).rows := hx ▸ hi
    have hj' : j < (p.shape dx.shape y.shape).cols := hx ▸ hj
    have hi'' : i < (p.shape x.shape dy.shape).rows := hy ▸ hi
    have hj'' : j < (p.shape x.shape dy.shape).cols := hy ▸ hj
    -- both sides are sums over the same places, and term by term epsilon squared is zero
    rw [get_add_of_shape hs, p.get_apply (dual x dx) (dual y dy) hi hj, p.get_apply _ _ hi' hj',
      p.get_apply _ _ hi'' hj'', shape_dual, shape_dual, hx, hy]
    induction p.terms x.shape y.shape i j with
    | nil => exact (add_zero 0).symm
    | cons t ts ih =>
      simp only [List.map_cons, List.sum_cons, snd_add, ih, snd_mul, fst_get_dual, snd_get_dual hx,
        snd_get_dual hy, op_smul_eq_smul, smul_eq_mul]
      ring

theorem dual_mul (hx : dx.shape = x.shape) (hy : dy.shape = y.shape) :
    (dual x dx).mul (dual y dy) = dual (x.mul y) ((dx.mul y).add (x.mul dy)) := by
  simp only [Product.mul_eq_apply, dual_apply _ hx hy]

/-- The real parts of a product are those of the product of the real parts. -/
theorem re_mul (m n : Dense (DualNumber K)) : (m.mul n).re = m.re.mul n.re := by
  have h := @dual_mul K _ m.re n.re m.ep n.ep rfl rfl
  rw [dual_re_ep, dual_re_ep] at h
  rw [h, re_dual]

theorem dual_kron (hx : dx.shape = x.shape) (hy : dy.shape = y.shape) :
    (dual x dx).kron (dual y dy) = dual (x.kron y) ((dx.kron y).add (x.kron dy)) := by
  simp only [Product.kron_eq_apply, dual_apply _ hx hy]

theorem dual_kronContractLeft (hx : dx.shape = x.shape) (hy : dy.shape = y.shape) :
    (dual x dx).kronContractLeft (dual y dy) =
      dual (x.kronContractLeft y) ((dx.kronContractLeft y).add (x.kronContractLeft dy)) := by
  simp only [Product.kronContractLeft_eq_apply, dual_apply _ hx hy]

theorem dual_kronContractRight (hx : dx.shape = x.shape) (hy : dy.shape = y.shape) :
    (dual x dx).kronContractRight (dual y dy) =
      dual (x.kronContractRight y) ((dx.kronContractRight y).add (x.kronContractRight dy)) := by
  simp only [Product.kronContractRight_eq_apply, dual_apply _ hx hy]

end Dense

end Lyapunov
