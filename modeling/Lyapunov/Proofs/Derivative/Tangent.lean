/-
The forward sweep. The node that it creates for the rate of change of a node has the shape of that node
(`grows_sweep`), and its value is the rate of change (`returns_sweep`); a node for which it creates none
has the rate of change zero.
-/
import Lyapunov.Proofs.Derivative.Rate
import Lyapunov.Proofs.Derivative.Nodes
import Lyapunov.Proofs.Graph.Order

namespace Lyapunov

open Build

variable {α : Type}

/-! ## The graph -/

section Graph

variable {F : Prop} {R : Shape → Prop} {S T : Set (Expr α)} {s t : Shape} {x y : Expr α}

theorem UnaryOp.grows_tangent {op : UnaryOp α} {dx : Expr α} (hdx : Node F S s dx)
    (hc : F → op.check s = .ok () ∧ R (op.shape s)) :
    Grows (Fits F R T) S (op.tangent dx) (Node F · (op.shape s)) := by
  cases op with
  | reshape t =>
    refine grows_reshape hdx fun hF => ⟨?_, (hc hF).2⟩
    exact beq_iff_eq.1 (Shape.require_eq_ok.1 (hc hF).1)
  | _ => exact grows_unary _ hdx hc

theorem Expr.grows_productTangent (op : BinaryOp) {dx dy : Option (Expr α)} (hx : Node F S s x)
    (hy : Node F S t y) (hdx : OptNode F S s dx) (hdy : OptNode F S t dy)
    (hc : F → op.check s t = .ok () ∧ R (op.shape s t)) :
    Grows (Fits F R T) S (Expr.productTangent (Expr.newBinary op) x y dx dy)
      (OptNode F · (op.shape s t)) := by
  unfold Expr.productTangent
  refine grows_bind (grows_mapOption hdx fun e he => grows_binary op he hy hc) fun S' o hS ho => ?_
  have hdy' := hdy.mono hS
  refine grows_bind (grows_mapOption hdy' fun e he => grows_binary op (hx.mono hS) he hc)
    fun S'' p hS' hp => ?_
  exact grows_addOption (ho.mono hS') hp fun hF => (hc hF).2

theorem BinaryOp.grows_tangent {op : BinaryOp} {result : Expr α} {dx dy : Option (Expr α)}
    (hx : Node F S s x) (hy : Node F S t y) (hr : Node F S (op.shape s t) result)
    (hdx : OptNode F S s dx) (hdy : OptNode F S t dy) (hR : F → R t)
    (hc : F → op.check s t = .ok () ∧ R (op.shape s t)) :
    Grows (Fits F R T) S (op.tangent result x y dx dy) (OptNode F · (op.shape s t)) := by
  cases op with
  | add =>
    have hdy' : OptNode F S s dy := fun e he => ⟨(hdy e he).mem, fun hF => by
      rw [(hdy e he).shape hF]
      exact (beq_iff_eq.1 (Shape.require_eq_ok.1 (hc hF).1)).symm⟩
    exact grows_addOption hdx hdy' fun hF => (hc hF).2
  | matmul => exact Expr.grows_productTangent .matmul hx hy hdx hdy hc
  | kron => exact Expr.grows_productTangent .kron hx hy hdx hdy hc
  | kronContractLeft => exact Expr.grows_productTangent .kronContractLeft hx hy hdx hdy hc
  | kronContractRight => exact Expr.grows_productTangent .kronContractRight hx hy hdx hdy hc
  | solve =>
    have hshape (hF : F) : BinaryOp.matmul.shape s (BinaryOp.solve.shape s t) = t := by
      obtain ⟨-, hrows⟩ := BinaryOp.check_solve.1 (hc hF).1
      show (⟨s.rows, t.cols⟩ : Shape) = t
      rw [hrows]
    have hcheck (hF : F) : BinaryOp.matmul.check s (BinaryOp.solve.shape s t) = .ok () ∧
        R (BinaryOp.matmul.shape s (BinaryOp.solve.shape s t)) :=
      ⟨Shape.require_eq_ok.2 (beq_self_eq_true s.cols), by rw [hshape hF]; exact hR hF⟩
    have hmatrix : Grows (Fits F R T) S
        (Expr.mapOption (fun dm => do (← dm.matmul result).neg) dx) (OptNode F · t) := by
      refine grows_mapOption hdx fun e he => grows_bind (grows_binary .matmul he hr hcheck) fun S' d hS hd => ?_
      refine (grows_unary .neg hd fun hF => ⟨rfl, (hcheck hF).2⟩).imp fun S'' d' _ hd' => ?_
      exact ⟨hd'.mem, fun hF => (hd'.shape hF).trans (hshape hF)⟩
    refine grows_bind hmatrix fun S' o hS ho => ?_
    refine grows_bind (grows_addOption (hdy.mono hS) ho hR) fun S'' p hS' hp => ?_
    exact grows_mapOption hp fun e he => grows_binary .solve (hx.mono (hS.trans hS')) he hc
  | assertion message => exact grows_pure hdx

namespace Tangents

variable {G : Set (Expr α)}

theorem grows_step (hG : IsGraph G) (hfit : ∀ e ∈ G, Fits F R T e) (hGS : G ⊆ S) {t : Tangents α}
    (ht : Fitted F G S t) {e : Expr α} (he : e ∈ G) :
    Grows (Fits F R T) S (t.step e) (Fitted F G) := by
  have hnode : Grows (Fits F R T) S (t.ofNode e) (OptNode F · e.shape) := by
    have hops (x) (hx : x ∈ e.operands) : x ∈ G := hG.closed e he x hx
    have hself {x} (hx : x ∈ G) : Node F S x.shape x := ⟨hGS hx, fun _ => rfl⟩
    cases e with
    | symbol => exact grows_pure optNode_none
    | constant => exact grows_pure optNode_none
    | unary i op x =>
      have hx := hops x (by simp [Expr.operands])
      exact grows_mapOption (ht x hx) fun d hd => UnaryOp.grows_tangent hd (hfit _ he).check
    | binary i op x y =>
      have hx := hops x (by simp [Expr.operands])
      have hy := hops y (by simp [Expr.operands])
      exact BinaryOp.grows_tangent (hself hx) (hself hy) (hself he) (ht x hx) (ht y hy)
        (fun hF => ((hfit y hy).check hF).2) (hfit _ he).check
  refine grows_bind hnode fun S' o hS ho => ?_
  cases o with
  | none => exact grows_pure (ht.mono hS)
  | some de => exact grows_pure ((ht.mono hS).insert hG he (ho de rfl))

/-- The sweep over nodes of `G`. -/
theorem grows_sweep (hG : IsGraph G) (hfit : ∀ e ∈ G, Fits F R T e) (hGS : G ⊆ S)
    {order : List (Expr α)} (horder : ∀ e ∈ order, e ∈ G) {t : Tangents α} (ht : Fitted F G S t) :
    Grows (Fits F R T) S (order.foldlM Tangents.step t) (Fitted F G) :=
  grows_foldlM (fun e he _ _ hS ht => grows_step hG hfit (hGS.trans hS) ht (horder e he)) ht

end Tangents

end Graph

/-! ## The values -/

section Value

variable {R : Type} [LocalScalar R] {env : Nat → Dense R} {x y : Expr R} {a b v da db : Dense R}

/-- The node has the value `v`; if there is none, then the value is zero. -/
def Denotes (env : Nat → Dense R) (o : Option (Expr R)) (v : Dense R) : Prop :=
  match o with
  | some e => e.Computes env v
  | none => v = .zero v.shape

theorem returns_mapOption {f : Expr R → Build (Expr R)} {o : Option (Expr R)} (ho : Denotes env o a)
    (hf : ∀ e, e.Computes env a → (f e).Returns (Expr.Computes env · b))
    (hzero : a = .zero a.shape → b = .zero b.shape) :
    (Expr.mapOption f o).Returns (Denotes env · b) := by
  cases o with
  | none => exact returns_pure (hzero ho)
  | some e => exact returns_bind (hf e ho) fun d hd => returns_pure hd

theorem returns_addOption {o p : Option (Expr R)} (ho : Denotes env o a) (hp : Denotes env p b)
    (hs : a.shape = b.shape) : (Expr.addOption o p).Returns (Denotes env · (a.add b)) := by
  cases o with
  | none =>
    have ha : a = .zero b.shape := ho.trans (congrArg Dense.zero hs)
    rw [ha, Dense.zero_add']
    exact returns_pure hp
  | some x =>
    cases p with
    | none =>
      have hb : b = .zero a.shape := Eq.trans hp (congrArg Dense.zero hs.symm)
      rw [hb, Dense.add_zero']
      exact returns_pure ho
    | some y =>
      have hc : BinaryOp.add.check a.shape b.shape = .ok () :=
        Shape.require_eq_ok.2 (beq_iff_eq.2 hs)
      exact returns_bind (returns_binary .add ho hp hc rfl) fun d hd => returns_pure hd

theorem returns_orZeros {o : Option (Expr R)} (ho : Denotes env o v) :
    (Func.orZeros v.shape o).Returns (Expr.Computes env · v) := by
  cases o with
  | some e => exact returns_pure ho
  | none =>
    refine returns_newConstant fun i => ⟨?_, rfl⟩
    rw [Expr.value_constant, ← ho]

theorem UnaryOp.returns_tangent {op : UnaryOp R} (hx : x.Computes env a) :
    (op.tangent x).Returns (Expr.Computes env · (op.eval a)) := by
  cases op with
  | reshape t =>
    show (x.reshape t).Returns _
    unfold Expr.reshape
    split
    · rename_i h
      have hreshape : a.reshape t = a := by rw [← h, hx.shape, Dense.reshape_shape]
      show (pure x : Build (Expr R)).Returns (Expr.Computes env · (a.reshape t))
      rw [hreshape]
      exact returns_pure hx
    · exact returns_unary _ hx
  | _ => exact returns_unary _ hx

theorem Expr.returns_productTangent (op : BinaryOp) {p : Product}
    (hp : ∀ a b : Dense R, op.eval a b = .ok (p.apply a b)) {dx dy : Option (Expr R)}
    (hx : x.Computes env a) (hy : y.Computes env b) (hdx : Denotes env dx da)
    (hdy : Denotes env dy db) (hc : op.check a.shape b.shape = .ok ()) (hda : da.shape = a.shape)
    (hdb : db.shape = b.shape) :
    (Expr.productTangent (Expr.newBinary op) x y dx dy).Returns
      (Denotes env · ((p.apply da b).add (p.apply a db))) := by
  have hzero₁ (h : da = .zero da.shape) : p.apply da b = .zero (p.apply da b).shape := by
    rw [h, Product.zero_apply]; rfl
  have hzero₂ (h : db = .zero db.shape) : p.apply a db = .zero (p.apply a db).shape := by
    rw [h, Product.apply_zero]; rfl
  refine returns_bind (returns_mapOption hdx (fun e he => ?_) hzero₁) fun o ho => ?_
  · exact returns_binary op he hy (hda ▸ hc) (hp da b)
  refine returns_bind (returns_mapOption hdy (fun e he => ?_) hzero₂) fun q hq => ?_
  · exact returns_binary op hx he (hdb ▸ hc) (hp a db)
  exact returns_addOption ho hq (by rw [Product.shape_apply, Product.shape_apply, hda, hdb])

/-- The solution changes by the solution of the system with the right-hand side that is left when the
change of the matrix has been taken into account. -/
theorem BinaryOp.returns_tangent_solve {result : Expr R} {dx dy : Option (Expr R)}
    (hx : x.Computes env a) (hr : result.Computes env v) (hdx : Denotes env dx da)
    (hdy : Denotes env dy db) (hc : BinaryOp.solve.check a.shape b.shape = .ok ())
    (hv : BinaryOp.solve.eval a b = .ok v) (hda : da.shape = a.shape) (hdb : db.shape = b.shape) :
    (BinaryOp.solve.tangent result x y dx dy).Returns
      (Denotes env · (BinaryOp.solve.rate a b v da db)) := by
  obtain ⟨hm, hb⟩ := BinaryOp.check_solve.1 hc
  have hvs := BinaryOp.shape_eval hc hv
  have hmul : BinaryOp.matmul.check da.shape v.shape = .ok () := by
    rw [hda, hvs]
    exact Shape.require_eq_ok.2 (beq_self_eq_true a.cols)
  have hs : db.shape = (da.mul v).neg.shape := by
    rw [hdb, Dense.shape_neg, Dense.shape_mul, Dense.rows_eq hda, Dense.cols_of_shape hvs]
    exact Dense.shape_eq (n := .zero ⟨a.rows, b.cols⟩) hb.symm rfl
  have hzero (h : da = .zero da.shape) : (da.mul v).neg = .zero (da.mul v).neg.shape := by
    rw [h, Product.mul_eq_apply, Product.zero_apply, Dense.neg_zero']; rfl
  have hsum : (db.add (da.mul v).neg).shape = b.shape := hdb
  have hzero' (h : db.add (da.mul v).neg = .zero (db.add (da.mul v).neg).shape) :
      solutionD a (db.add (da.mul v).neg) = .zero (solutionD a (db.add (da.mul v).neg)).shape := by
    rw [h, hsum, solutionD_zero hm hb hv]; rfl
  have hmatrix : (Expr.mapOption (fun dm => do (← dm.matmul result).neg) dx).Returns
      (Denotes env · (da.mul v).neg) := by
    refine returns_mapOption hdx (fun e he => ?_) hzero
    exact returns_bind (returns_binary .matmul he hr hmul rfl) fun d hd => returns_unary .neg hd
  refine returns_bind hmatrix fun o ho => ?_
  refine returns_bind (returns_addOption hdy ho hs) fun q hq => ?_
  refine returns_mapOption hq (fun e he => ?_) hzero'
  refine returns_binary .solve hx he ?_ (solutionD_spec hm hb hv hsum).1
  rw [hsum]
  exact hc

theorem BinaryOp.returns_tangent {op : BinaryOp} {result : Expr R} {dx dy : Option (Expr R)}
    (hx : x.Computes env a) (hy : y.Computes env b) (hr : result.Computes env v)
    (hdx : Denotes env dx da) (hdy : Denotes env dy db) (hc : op.check a.shape b.shape = .ok ())
    (hv : op.eval a b = .ok v) (hda : da.shape = a.shape) (hdb : db.shape = b.shape) :
    (op.tangent result x y dx dy).Returns (Denotes env · (op.rate a b v da db)) := by
  cases op with
  | add =>
    have hs : a.shape = b.shape := by simpa [BinaryOp.check, Shape.require_eq_ok] using hc
    exact returns_addOption hdx hdy (by rw [hda, hdb, hs])
  | matmul =>
    rw [BinaryOp.rate, Product.mul_eq_apply, Product.mul_eq_apply]
    exact Expr.returns_productTangent .matmul (fun a b => congrArg _ (Product.mul_eq_apply a b))
      hx hy hdx hdy hc hda hdb
  | kron =>
    rw [BinaryOp.rate, Product.kron_eq_apply, Product.kron_eq_apply]
    exact Expr.returns_productTangent .kron (fun a b => congrArg _ (Product.kron_eq_apply a b))
      hx hy hdx hdy hc hda hdb
  | kronContractLeft =>
    rw [BinaryOp.rate, Product.kronContractLeft_eq_apply, Product.kronContractLeft_eq_apply]
    exact Expr.returns_productTangent .kronContractLeft
      (fun a b => congrArg _ (Product.kronContractLeft_eq_apply a b)) hx hy hdx hdy hc hda hdb
  | kronContractRight =>
    rw [BinaryOp.rate, Product.kronContractRight_eq_apply, Product.kronContractRight_eq_apply]
    exact Expr.returns_productTangent .kronContractRight
      (fun a b => congrArg _ (Product.kronContractRight_eq_apply a b)) hx hy hdx hdy hc hda hdb
  | solve => exact BinaryOp.returns_tangent_solve hx hr hdx hdy hc hv hda hdb
  | assertion message => exact returns_pure hdx

namespace Tangents

variable {point rates : Nat → Dense R}

theorem returns_ofNode {t : Tangents R} {e : Expr R} (he : e.Evaluated point) (hb : e.Bound rates)
    (hnodes : ∀ x, Expr.Below x e → x.Computes env (x.valueD point))
    (ht : ∀ x ∈ e.operands, Denotes env t[x.id]? (x.rate point rates)) (hs : e.isSymbol = false) :
    (t.ofNode e).Returns (Denotes env · (e.rate point rates)) := by
  cases e with
  | symbol => cases hs
  | constant i m => exact returns_pure rfl
  | unary i op x =>
    have hx := ht x (by simp [Expr.operands])
    refine returns_mapOption hx (fun d hd => UnaryOp.returns_tangent hd) fun h => ?_
    rw [Expr.rate, h]
    exact op.eval_zero _
  | binary i op x y =>
    have hx : x ∈ (Expr.binary i op x y).operands := by simp [Expr.operands]
    have hy : y ∈ (Expr.binary i op x y).operands := by simp [Expr.operands]
    obtain ⟨hc, hv⟩ := he.eval_valueD
    obtain ⟨-, hbx, hby⟩ := Expr.all_binary.1 hb
    exact BinaryOp.returns_tangent (hnodes x (Expr.below_of_operand hx))
      (hnodes y (Expr.below_of_operand hy)) (hnodes _ (.refl _)) (ht x hx) (ht y hy) hc hv
      (he.binary.1.shape_rate hbx) (he.binary.2.shape_rate hby)

/-- The map has the rates of change of the nodes of the list, and otherwise what `start` has. -/
structure Rates (env point rates : Nat → Dense R) (l : List (Expr R)) (start t : Tangents R) : Prop where
  rate : ∀ e ∈ l, Denotes env t[e.id]? (e.rate point rates)
  kept : ∀ i, (∀ e ∈ l, e.id ≠ i) → t[i]? = start[i]?

variable {l : List (Expr R)} {start t : Tangents R}

theorem Rates.cons {e : Expr R} (h : Rates env point rates l start t)
    (he : Denotes env t[e.id]? (e.rate point rates)) : Rates env point rates (e :: l) start t where
  rate := List.forall_mem_cons.2 ⟨he, h.rate⟩
  kept i hi := h.kept i fun x hx => hi x (List.mem_cons_of_mem _ hx)

theorem Rates.insert {e de : Expr R} (h : Rates env point rates l start t)
    (hnew : ∀ x ∈ l, x.id ≠ e.id) (hd : de.Computes env (e.rate point rates)) :
    Rates env point rates (e :: l) start (t.insert e.id de) := by
  refine ⟨fun x hx => ?_, fun i hi => ?_⟩
  · rw [Std.HashMap.getElem?_insert]
    rcases List.mem_cons.1 hx with rfl | hx
    · rw [if_pos (beq_self_eq_true _)]
      exact hd
    · rw [if_neg (by simpa using (hnew x hx).symm)]
      exact h.rate x hx
  · rw [Std.HashMap.getElem?_insert, if_neg (by simpa using hi e List.mem_cons_self)]
    exact h.kept i fun x hx => hi x (List.mem_cons_of_mem _ hx)

/-- The sweep over nodes in topological order gives each of them its rate of change, from a map with
those of the symbols. -/
theorem returns_sweep (hl : Ordered l)
    (hnodes : ∀ e ∈ l, e.Evaluated point ∧ e.Bound rates ∧
      ∀ x, Expr.Below x e → x.Computes env (x.valueD point))
    (hsymbol : ∀ e ∈ l, e.isSymbol = true → Denotes env start[e.id]? (e.rate point rates))
    (hother : ∀ e ∈ l, e.isSymbol = false → start[e.id]? = none) :
    (l.reverse.foldlM Tangents.step start).Returns (Rates env point rates l start) := by
  induction hl with
  | nil => exact returns_pure ⟨by simp, fun _ _ => rfl⟩
  | @cons e l hops hnew _ ih =>
    rw [foldlM_reverse_cons]
    have hrest := ih (fun x hx => hnodes x (List.mem_cons_of_mem _ hx))
      (fun x hx => hsymbol x (List.mem_cons_of_mem _ hx))
      fun x hx => hother x (List.mem_cons_of_mem _ hx)
    refine returns_bind hrest fun t ht => ?_
    -- the step before has left the place of the node alone
    have hself : t[e.id]? = start[e.id]? := ht.kept _ hnew
    obtain ⟨he, hb, hbelow⟩ := hnodes e List.mem_cons_self
    cases hs : e.isSymbol with
    | true =>
      have hstep : t.step e = pure t := by
        cases e with
        | symbol => rfl
        | _ => cases hs
      rw [hstep]
      exact returns_pure (ht.cons (hself ▸ hsymbol e List.mem_cons_self hs))
    | false =>
      refine returns_bind (returns_ofNode he hb hbelow (fun x hx => ht.rate x (hops x hx)) hs)
        fun o ho => ?_
      cases o with
      | none => exact returns_pure (ht.cons ((hself.trans (hother e List.mem_cons_self hs)).symm ▸ ho))
      | some de => exact returns_pure (ht.insert hnew ho)

end Tangents

end Value

end Lyapunov
