/-
Second rates of change. The rate of change of an expression in one direction changes itself when the
expression is moved in another direction; by the rules of differentiation it does not matter which of the
two directions comes first. This second rate of change is the epsilon part of the rate of change which the
expression has over the dual numbers.
-/
import Lyapunov.Proofs.Derivative.Rate
import Lyapunov.Proofs.Graph.Map

namespace Lyapunov

open TrivSqZeroExt

/-- A value with its rates of change in two directions. -/
structure Varied (R : Type) where
  value : Dense R
  first : Dense R
  second : Dense R

namespace Varied

variable {R : Type}

/-- The directions in the other order. -/
def swap (x : Varied R) : Varied R := ⟨x.value, x.second, x.first⟩

/-- The rates of change have the shape of the value. -/
structure Shaped (x : Varied R) : Prop where
  first : x.first.shape = x.value.shape
  second : x.second.shape = x.value.shape

end Varied

/-! ## Products -/

section Product

variable {R : Type} [CommRing R] {p : Product} {x y : Varied R}

/-- The part of the second rate of change of a product in which each factor changes in one direction. -/
def Product.crossed (p : Product) (x y : Varied R) : Dense R :=
  (p.apply x.first y.second).add (p.apply x.second y.first)

theorem Product.crossed_swap (hx : x.Shaped) (hy : y.Shaped) : p.crossed x.swap y.swap = p.crossed x y := by
  have hs : (p.apply x.second y.first).shape = (p.apply x.first y.second).shape := by
    rw [shape_apply, shape_apply, hx.first, hx.second, hy.first, hy.second]
  exact Dense.add_comm' hs

/-- The rate of change of a product over the dual numbers, by the product rule. -/
theorem Product.rate_dual (hx : x.Shaped) (hy : y.Shaped) {dx dy : Dense R}
    (hdx : dx.shape = x.value.shape) (hdy : dy.shape = y.value.shape) :
    (p.apply (.dual x.first dx) (.dual y.value y.second)).add
        (p.apply (.dual x.value x.second) (.dual y.first dy)) =
      Dense.dual ((p.apply x.first y.value).add (p.apply x.value y.first))
        (((p.apply dx y.value).add (p.apply x.value dy)).add (p.crossed x y)) := by
  rw [Dense.dual_apply p (hdx.trans hx.first.symm) hy.second,
    Dense.dual_apply p hx.second (hdy.trans hy.first.symm), Dense.dual_add]
  · refine congrArg (Dense.dual _) (Dense.ext_shape ?_ fun i j => ?_)
    · rw [Dense.shape_add, Dense.shape_add, Dense.shape_add, Dense.shape_add]
    · rw [crossed, Dense.get_add_of_shape, Dense.get_add_of_shape, Dense.get_add_of_shape,
        Dense.get_add_of_shape, Dense.get_add_of_shape, Dense.get_add_of_shape]
      · ring
      all_goals simp only [Dense.shape_add, shape_apply, hx.first, hx.second, hy.first, hy.second, hdx, hdy]
  · rw [Dense.shape_add, shape_apply, shape_apply, hdx, hx.first]
  · rw [Dense.shape_add, shape_apply, shape_apply, hx.second, hy.first]
  · rw [shape_apply, shape_apply, hx.first, hy.first]

end Product

/-! ## Operations -/

section Operation

variable {R : Type} [LocalScalar R]

/-- The second rate of change of an operation with the value `v` on `x` and `y`, given those of `x` and
`y`. -/
def BinaryOp.mixedRate (op : BinaryOp) (x y v : Varied R) (dx dy : Dense R) : Dense R :=
  match op with
  | .matmul => (matmul.rate x.value y.value v.value dx dy).add (Product.matmul.crossed x y)
  | .kron => (kron.rate x.value y.value v.value dx dy).add (Product.kron.crossed x y)
  | .kronContractLeft =>
    (kronContractLeft.rate x.value y.value v.value dx dy).add (Product.kronContractLeft.crossed x y)
  | .kronContractRight =>
    (kronContractRight.rate x.value y.value v.value dx dy).add (Product.kronContractRight.crossed x y)
  -- the solution and the matrix of a system change so that their product changes as the right-hand side
  | .solve => solve.rate x.value y.value v.value dx (dy.add (Product.matmul.crossed x v).neg)
  | op => op.rate x.value y.value v.value dx dy

namespace BinaryOp

variable {op : BinaryOp} {x y v : Varied R} {dx dy : Dense R}
  (hc : op.check x.value.shape y.value.shape = .ok ()) (hv : op.eval x.value y.value = .ok v.value)
  (hx : x.Shaped) (hy : y.Shaped) (hvs : v.Shaped)

include hc hv in
theorem shape_mixedRate (hdx : dx.shape = x.value.shape) (hdy : dy.shape = y.value.shape) :
    (op.mixedRate x y v dx dy).shape = v.value.shape := by
  have hshape := shape_rate hc hv hdx hdy
  cases op with
  | solve => exact shape_rate hc hv hdx hdy
  | add => exact hshape
  | assertion message => exact hshape
  | _ => exact (Dense.shape_add _ _).trans hshape

include hx hy hvs

/-- The order of the directions does not matter. -/
theorem mixedRate_swap : op.mixedRate x.swap y.swap v.swap dx dy = op.mixedRate x y v dx dy := by
  cases op with
  | add => rfl
  | assertion message => rfl
  | solve =>
    show solve.rate x.value y.value v.value dx (dy.add (Product.matmul.crossed x.swap v.swap).neg) = _
    rw [Product.crossed_swap hx hvs]
    rfl
  | matmul => exact congrArg (Dense.add _) (Product.crossed_swap hx hy)
  | kron => exact congrArg (Dense.add _) (Product.crossed_swap hx hy)
  | kronContractLeft => exact congrArg (Dense.add _) (Product.crossed_swap hx hy)
  | kronContractRight => exact congrArg (Dense.add _) (Product.crossed_swap hx hy)

end BinaryOp

end Operation

/-! ## Expressions -/

namespace Expr

section Local

variable {R : Type} [LocalScalar R] {env du dv dw : Nat → Dense R} {e : Expr R}

/-- The value, with its rates of change in the directions `du` and `dv`. -/
def varied (env du dv : Nat → Dense R) (e : Expr R) : Varied R :=
  ⟨e.valueD env, e.rate env du, e.rate env dv⟩

/-- The rate at which the rate of change in the direction `du` changes, when the values of the symbols
change at the rates `dv` and the direction at the rates `dw`. -/
def mixedRate (env du dv dw : Nat → Dense R) : Expr R → Dense R
  | .symbol i _ _ => dw i
  | .constant _ m => .zero m.shape
  | .unary _ op x => op.eval (x.mixedRate env du dv dw)
  | .binary i op x y => op.mixedRate (x.varied env du dv) (y.varied env du dv)
      ((Expr.binary i op x y).varied env du dv) (x.mixedRate env du dv dw) (y.mixedRate env du dv dw)

theorem Evaluated.shaped_varied (h : e.Evaluated env) (hu : e.Bound du) (hv : e.Bound dv) :
    (e.varied env du dv).Shaped := ⟨h.shape_rate hu, h.shape_rate hv⟩

theorem Evaluated.shape_mixedRate (h : e.Evaluated env) (hw : e.Bound dw) :
    (e.mixedRate env du dv dw).shape = (e.valueD env).shape := by
  induction e with
  | symbol i name s => exact (hw _ (.refl _) rfl).trans h.shape_valueD.symm
  | constant i m => rfl
  | unary i op x ih =>
    rw [h.valueD_unary, UnaryOp.shape_eval, mixedRate, UnaryOp.shape_eval, ih h.unary (all_unary.1 hw).2]
  | binary i op x y ihx ihy =>
    obtain ⟨hc, hv⟩ := h.eval_valueD
    exact BinaryOp.shape_mixedRate (x := x.varied env du dv) (y := y.varied env du dv) hc hv
      (ihx h.binary.1 (all_binary.1 hw).2.1) (ihy h.binary.2 (all_binary.1 hw).2.2)

/-- The order of the directions does not matter. -/
theorem Evaluated.mixedRate_comm (h : e.Evaluated env) (hu : e.Bound du) (hv : e.Bound dv) :
    e.mixedRate env du dv dw = e.mixedRate env dv du dw := by
  induction e with
  | symbol => rfl
  | constant => rfl
  | unary i op x ih =>
    rw [mixedRate, mixedRate, ih h.unary (all_unary.1 hu).2 (all_unary.1 hv).2]
  | binary i op x y ihx ihy =>
    obtain ⟨-, hux, huy⟩ := all_binary.1 hu
    obtain ⟨-, hvx, hvy⟩ := all_binary.1 hv
    rw [mixedRate, mixedRate, ihx h.binary.1 hux hvx, ihy h.binary.2 huy hvy]
    exact (BinaryOp.mixedRate_swap (h.binary.1.shaped_varied hux hvx)
      (h.binary.2.shaped_varied huy hvy) (h.shaped_varied hu hv)).symm

end Local

end Expr

/-! ## Operations on dual numbers -/

section Dual

variable {K : Type} [ExactScalar K]

theorem Dense.dual_zero (s : Shape) : Dense.dual (.zero s : Dense K) (.zero s) = .zero s := by
  refine (eq_dual rfl rfl (fun i j _ _ => ?_) fun i j _ _ => ?_).symm
  · rw [get_zero, get_zero, fst_zero]
  · rw [get_zero, get_zero, snd_zero]

theorem Dense.map_inl (m : Dense K) : m.map inl = Dense.dual m (.zero m.shape) := by
  refine eq_dual rfl rfl (fun i j _ _ => ?_) fun i j _ _ => ?_
  · rw [get_map (inl_zero K), fst_inl]
  · rw [get_map (inl_zero K), snd_inl, get_zero]

theorem UnaryOp.eval_dual (op : UnaryOp K) {x dx : Dense K} (h : dx.shape = x.shape) :
    (op.map inl).eval (Dense.dual x dx) = Dense.dual (op.eval x) (op.eval dx) := by
  cases op with
  | neg => exact Dense.dual_neg h
  | scale c => exact Dense.dual_scale h c
  | transpose => exact Dense.dual_transpose h
  | reshape s => exact Dense.dual_reshape h s

/-- A system over the dual numbers has a solution if the system of the real parts has one. -/
theorem exists_solution_dual {m b v : Dense K} (hm : m.rows = m.cols) (h : solution m b = .ok v)
    (dm db : Dense K) : ∃ w, solution (Dense.dual m dm) (Dense.dual b db) = .ok w := by
  rw [Dense.exists_solution_iff]
  rcases Dense.exists_solution_iff.1 ⟨v, h⟩ with hcols | ⟨hrows, hs⟩
  · exact .inl hcols
  · refine .inr ⟨hrows, Dense.exists_solve?_of_residues (m := Dense.dual m dm) hm
      (fun z hz hresidues i j => ?_) _⟩
    -- the matrix of the real parts sends those of z to zero
    have hmul : ((Dense.dual m dm).mul z).re = m.mul z.re := by rw [Dense.re_mul, Dense.re_dual]
    have hre : z.re = .zero ⟨m.cols, 1⟩ := by
      refine Dense.mul_left_inj_of_solve? hm hs (Dense.rows_of_shape hz) rfl ?_
      rw [Dense.mul_zero', ← hmul]
      refine Dense.ext_get rfl (congrArg Shape.cols hz) fun i j _ _ => ?_
      rw [Dense.get_re, Dense.get_zero]
      exact DualNumber.mem_maximalIdeal_iff.1 (hresidues i j)
    rw [DualNumber.mem_maximalIdeal_iff, ← Dense.get_re, hre, Dense.get_zero]

theorem BinaryOp.eval_dual {op : BinaryOp} {x y v dx dy : Dense K} (hc : op.check x.shape y.shape = .ok ())
    (hv : op.eval x y = .ok v) (hdx : dx.shape = x.shape) (hdy : dy.shape = y.shape) :
    op.eval (Dense.dual x dx) (Dense.dual y dy) = .ok (Dense.dual v (op.rate x y v dx dy)) := by
  cases op with
  | add =>
    cases hv
    exact congrArg Except.ok (Dense.dual_add hdx hdy (check_add.1 hc))
  | matmul =>
    cases hv
    exact congrArg Except.ok (Dense.dual_mul hdx hdy)
  | kron =>
    cases hv
    exact congrArg Except.ok (Dense.dual_kron hdx hdy)
  | kronContractLeft =>
    cases hv
    exact congrArg Except.ok (Dense.dual_kronContractLeft hdx hdy)
  | kronContractRight =>
    cases hv
    exact congrArg Except.ok (Dense.dual_kronContractRight hdx hdy)
  | solve =>
    obtain ⟨hm, hb⟩ := check_solve.1 hc
    obtain ⟨w, hw⟩ := exists_solution_dual hm hv dx dy
    obtain ⟨hs, hmul⟩ := Dense.solution_eq_ok (m := Dense.dual x dx) (b := Dense.dual y dy) hm hb hw
    rw [(dual_solution hm hb hv hdx hdy).2 w hs hmul] at hw
    exact hw
  | assertion message =>
    obtain ⟨htest, rfl⟩ := eval_assertion.1 hv
    refine eval_assertion.2 ⟨?_, rfl⟩
    show (((Dense.dual y dy).get 0 0).fst == (1 : DualNumber K).fst) = true
    rw [Dense.fst_get_dual, fst_one]
    exact htest

namespace BinaryOp

variable {op : BinaryOp} {x y v : Varied K} {dx dy : Dense K} (hx : x.Shaped) (hy : y.Shaped)
  (hdx : dx.shape = x.value.shape) (hdy : dy.shape = y.value.shape)

include hx hy hdx hdy

/-- The solution over the dual numbers of the system for the rate of change: its real part solves the system
for the rate of change, and its epsilon part that for the second rate of change. -/
theorem rate_dual_solve (hc : solve.check x.value.shape y.value.shape = .ok ())
    (hv : solve.eval x.value y.value = .ok v.value)
    (hfirst : v.first = solve.rate x.value y.value v.value x.first y.first)
    (hsecond : v.second = solve.rate x.value y.value v.value x.second y.second) :
    solve.rate (Dense.dual x.value x.second) (Dense.dual y.value y.second) (Dense.dual v.value v.second)
        (Dense.dual x.first dx) (Dense.dual y.first dy) =
      Dense.dual v.first (solve.mixedRate x y v dx dy) := by
  have hm : x.value.rows = x.value.cols := (check_solve.1 hc).1
  have hb : x.value.rows = y.value.rows := (check_solve.1 hc).2
  have hvs := shape_eval hc hv
  have hvs₁ : v.first.shape = v.value.shape := hfirst ▸ shape_rate hc hv hx.first hy.first
  have hvs₂ : v.second.shape = v.value.shape := hsecond ▸ shape_rate hc hv hx.second hy.second
  have hproduct {a b : Dense K} (ha : a.shape = x.value.shape) (hb' : b.shape = v.value.shape) :
      (a.mul b).shape = y.value.shape := by
    rw [Dense.shape_mul, Dense.rows_eq ha, Dense.cols_of_shape (hb'.trans hvs), hb]
    rfl
  have hs₁ := hproduct hdx (rfl : v.value.shape = _)
  have hs₂ := hproduct hx.first (rfl : v.value.shape = _)
  have hs₃ := hproduct hx.first hvs₂
  have hs₄ := hproduct hx.second hvs₁
  -- the right-hand side of the system for the rate of change, and that for its epsilon part
  let c := y.first.add (x.first.mul v.value).neg
  let dc := dy.add ((dx.mul v.value).add (x.first.mul v.second)).neg
  have hc₁ : c.shape = y.value.shape := hy.first
  have hdc : dc.shape = c.shape := hdy.trans hc₁.symm
  have hsum : ((dx.mul v.value).add (x.first.mul v.second)).shape = (x.first.mul v.value).shape :=
    hs₁.trans hs₂.symm
  have hright : (Dense.dual y.first dy).add
      ((Dense.dual x.first dx).mul (Dense.dual v.value v.second)).neg = Dense.dual c dc := by
    rw [Dense.dual_mul (hdx.trans hx.first.symm) hvs₂, Dense.dual_neg hsum]
    exact Dense.dual_add (hdy.trans hy.first.symm) hsum (hy.first.trans hs₂.symm)
  have hvalue := hsecond ▸ eval_dual hc hv hx.second hy.second
  obtain ⟨-, hs, hdual⟩ := solutionD_spec (m := Dense.dual x.value x.second)
    (b := Dense.dual y.value y.second) (c := Dense.dual c dc) hm hb hvalue hc₁
  obtain ⟨hsolution, -, -⟩ := solutionD_spec (c := c) hm hb hv hc₁
  have hbc : x.value.rows = c.rows := hb.trans (Dense.rows_eq hc₁).symm
  have hunique := (dual_solution hm hbc hsolution hx.second hdc).2 _
    (hs.trans (congrArg (fun n => (⟨x.value.cols, n⟩ : Shape)) (Dense.cols_eq hc₁).symm)) hdual
  have hfirst' : solutionD x.value c = v.first := hfirst.symm
  rw [rate, hright, hunique, hfirst', mixedRate, rate, Product.crossed, ← Product.mul_eq_apply,
    ← Product.mul_eq_apply]
  exact congrArg (fun t => Dense.dual v.first (solutionD x.value t))
    (Dense.add_neg_add_neg (hs₁.trans hdy.symm) (hs₃.trans hdy.symm) (hs₄.trans hdy.symm))

/-- The rate of change over the dual numbers has the second rate of change as its epsilon part. -/
theorem rate_dual (hc : op.check x.value.shape y.value.shape = .ok ())
    (hv : op.eval x.value y.value = .ok v.value)
    (hfirst : v.first = op.rate x.value y.value v.value x.first y.first)
    (hsecond : v.second = op.rate x.value y.value v.value x.second y.second) :
    op.rate (Dense.dual x.value x.second) (Dense.dual y.value y.second) (Dense.dual v.value v.second)
        (Dense.dual x.first dx) (Dense.dual y.first dy) =
      Dense.dual v.first (op.mixedRate x y v dx dy) := by
  cases op with
  | solve => exact rate_dual_solve hx hy hdx hdy hc hv hfirst hsecond
  | add =>
    rw [hfirst]
    exact Dense.dual_add (hdx.trans hx.first.symm) (hdy.trans hy.first.symm)
      (hx.first.trans ((check_add.1 hc).trans hy.first.symm))
  | assertion message =>
    rw [hfirst]
    rfl
  | matmul =>
    rw [hfirst]
    simp only [rate, mixedRate, Product.mul_eq_apply]
    exact Product.rate_dual hx hy hdx hdy
  | kron =>
    rw [hfirst]
    simp only [rate, mixedRate, Product.kron_eq_apply]
    exact Product.rate_dual hx hy hdx hdy
  | kronContractLeft =>
    rw [hfirst]
    simp only [rate, mixedRate, Product.kronContractLeft_eq_apply]
    exact Product.rate_dual hx hy hdx hdy
  | kronContractRight =>
    rw [hfirst]
    simp only [rate, mixedRate, Product.kronContractRight_eq_apply]
    exact Product.rate_dual hx hy hdx hdy

end BinaryOp

/-! ## Expressions over the dual numbers -/

/-- The values `env`, with the rates of change `denv` as their epsilon parts. -/
def dualEnv (env denv : Nat → Dense K) (i : Nat) : Dense (DualNumber K) := .dual (env i) (denv i)

namespace Expr

variable {env denv du dv dw : Nat → Dense K} {e : Expr K}

/-- The expression over the dual numbers. -/
def toDual (e : Expr K) : Expr (DualNumber K) := e.map inl

theorem bound_toDual (h : e.Bound env) : e.toDual.Bound (dualEnv env denv) :=
  all_map.2 fun x hx hs => by
    rw [isSymbol_map] at hs
    rw [id_map, shape_map]
    exact h x hx hs

/-- Over the dual numbers an expression has its value with its rate of change. -/
theorem Evaluated.computes_toDual (h : e.Evaluated env) (hd : e.Bound denv) :
    e.toDual.Computes (dualEnv env denv) (.dual (e.valueD env) (e.rate env denv)) := by
  induction e with
  | symbol i name s => exact ⟨rfl, h.shape_valueD.symm⟩
  | constant i m => exact ⟨congrArg Except.ok (Dense.map_inl m), rfl⟩
  | unary i op x ih =>
    have hx := ih h.unary (all_unary.1 hd).2
    rw [h.valueD_unary, rate, ← UnaryOp.eval_dual op (h.unary.shape_rate (all_unary.1 hd).2)]
    exact hx.unary i (op.map inl)
  | binary i op x y ihx ihy =>
    obtain ⟨hc, hv⟩ := h.eval_valueD
    obtain ⟨-, hdx, hdy⟩ := all_binary.1 hd
    obtain ⟨hx, hy⟩ := h.binary
    exact (ihx hx hdx).binary (ihy hy hdy) hc
      (BinaryOp.eval_dual hc hv (hx.shape_rate hdx) (hy.shape_rate hdy)) i

theorem Evaluated.toDual (h : e.Evaluated env) (hd : e.Bound denv) :
    e.toDual.Evaluated (dualEnv env denv) :=
  ⟨h.checked.map, bound_toDual h.bound, _, (h.computes_toDual hd).value⟩

theorem Evaluated.valueD_toDual (h : e.Evaluated env) (hd : e.Bound denv) :
    e.toDual.valueD (dualEnv env denv) = .dual (e.valueD env) (e.rate env denv) :=
  valueD_eq _ (h.computes_toDual hd).value

/-- Over the dual numbers the rate of change has the second rate of change as its epsilon part. -/
theorem Evaluated.rate_toDual (h : e.Evaluated env) (hu : e.Bound du) (hv : e.Bound dv)
    (hw : e.Bound dw) : e.toDual.rate (dualEnv env dv) (dualEnv du dw) =
      .dual (e.rate env du) (e.mixedRate env du dv dw) := by
  induction e with
  | symbol => rfl
  | constant i m => exact (Dense.dual_zero m.shape).symm
  | unary i op x ih =>
    rw [rate, mixedRate, ← UnaryOp.eval_dual op, ← ih h.unary (all_unary.1 hu).2 (all_unary.1 hv).2
      (all_unary.1 hw).2]
    · rfl
    · exact (h.unary.shape_mixedRate (all_unary.1 hw).2).trans (h.unary.shape_rate (all_unary.1 hu).2).symm
  | binary i op x y ihx ihy =>
    obtain ⟨hc, hvalue⟩ := h.eval_valueD
    obtain ⟨-, hux, huy⟩ := all_binary.1 hu
    obtain ⟨-, hvx, hvy⟩ := all_binary.1 hv
    obtain ⟨-, hwx, hwy⟩ := all_binary.1 hw
    obtain ⟨hx, hy⟩ := h.binary
    have hrate : (Expr.binary i op x y).toDual.rate (dualEnv env dv) (dualEnv du dw) =
        op.rate (x.toDual.valueD (dualEnv env dv)) (y.toDual.valueD (dualEnv env dv))
          ((Expr.binary i op x y).toDual.valueD (dualEnv env dv)) (x.toDual.rate (dualEnv env dv) (dualEnv du dw))
          (y.toDual.rate (dualEnv env dv) (dualEnv du dw)) := rfl
    rw [hrate, hx.valueD_toDual hvx, hy.valueD_toDual hvy, h.valueD_toDual hv, ihx hx hux hvx hwx,
      ihy hy huy hvy hwy]
    exact BinaryOp.rate_dual (x := x.varied env du dv) (y := y.varied env du dv)
      (v := (Expr.binary i op x y).varied env du dv) (hx.shaped_varied hux hvx) (hy.shaped_varied huy hvy)
      (hx.shape_mixedRate hwx) (hy.shape_mixedRate hwy) hc hvalue rfl rfl

end Expr

end Dual

end Lyapunov
