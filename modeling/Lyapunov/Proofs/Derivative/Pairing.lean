/-
The reverse sweep. The adjoints that it finds have the shapes of their nodes (`grows_sweep`). The inner
products of the adjoints with the rates of change of the nodes, added up over the nodes that are still
to come, stay what they are when a node hands its adjoint down (`returns_sweep`), so that in the end the
symbols hold what the outputs were given.
-/
import Lyapunov.Proofs.Derivative.Adjoint
import Lyapunov.Proofs.Graph.Order

namespace Lyapunov

open Build

variable {α : Type}

namespace Adjoints

theorem accumulate_of_some {t : Adjoints α} {e bar : Expr α} (h : t[e.id]? = some bar) (c : Expr α) :
    t.accumulate e c = (do return t.insert e.id (← bar.add c)) := by
  unfold accumulate; rw [h]

theorem accumulate_of_none {t : Adjoints α} {e : Expr α} (h : t[e.id]? = none) (c : Expr α) :
    t.accumulate e c = pure (t.insert e.id c) := by
  unfold accumulate; rw [h]

theorem step_of_none {t : Adjoints α} {e : Expr α} (h : t[e.id]? = none) : t.step e = pure t := by
  unfold step; rw [h]

theorem step_of_isSymbol (t : Adjoints α) {e : Expr α} (h : e.isSymbol = true) : t.step e = pure t := by
  cases ht : t[e.id]? with
  | none => exact step_of_none ht
  | some bar =>
    unfold step
    rw [ht]
    cases e with
    | symbol => rfl
    | _ => cases h

/-! ## The graph -/

section Graph

variable {F : Prop} {R : Shape → Prop} {S T G : Set (Expr α)} {t : Adjoints α}

theorem grows_accumulate (hG : IsGraph G) (ht : Fitted F G S t) {e c : Expr α} (he : e ∈ G)
    (hc : Node F S e.shape c) (hR : F → R e.shape) :
    Grows (Fits F R T) S (t.accumulate e c) (Fitted F G) := by
  cases h : t[e.id]? with
  | none =>
    rw [accumulate_of_none h]
    exact grows_pure (ht.insert hG he hc)
  | some bar =>
    rw [accumulate_of_some h]
    refine grows_bind (grows_binary .add (ht e he bar h) hc fun hF =>
      ⟨Shape.require_eq_ok.2 (beq_self_eq_true _), hR hF⟩) fun S' d hS hd => ?_
    exact grows_pure ((ht.mono hS).insert hG he hd)

theorem grows_step (htr : ∀ s, R s → R s.transpose) (hG : IsGraph G) (hfit : ∀ e ∈ G, Fits F R T e)
    (hblocks : F → ∀ e ∈ G, e.Contractible) (hGS : G ⊆ S) (ht : Fitted F G S t) {e : Expr α} (he : e ∈ G) :
    Grows (Fits F R T) S (t.step e) (Fitted F G) := by
  cases h : t[e.id]? with
  | none =>
    rw [step_of_none h]
    exact grows_pure ht
  | some bar =>
    have hbar := ht e he bar h
    have hcheck (hF : F) := ((hfit e he).check hF).1
    have hshape {x} (hx : x ∈ G) (hF : F) : R x.shape := ((hfit x hx).check hF).2
    have hops (x) (hx : x ∈ e.operands) : x ∈ G := hG.closed e he x hx
    have hself {x} (hx : x ∈ G) : Node F S x.shape x := ⟨hGS hx, fun _ => rfl⟩
    unfold step
    rw [h]
    cases e with
    | symbol => exact grows_pure ht
    | constant => exact grows_pure ht
    | unary i op x =>
      have hx := hops x (by simp [Expr.operands])
      refine grows_bind (UnaryOp.grows_adjoint hbar hcheck (hshape hx)) fun S' c hS hc => ?_
      exact grows_accumulate hG (ht.mono hS) hx hc (hshape hx)
    | binary i op x y =>
      have hx := hops x (by simp [Expr.operands])
      have hy := hops y (by simp [Expr.operands])
      refine grows_bind (BinaryOp.grows_adjoint htr (hself hx) (hself hy) (hself he) hbar hcheck
        (fun hF => ⟨hshape hx hF, hshape hy hF, hshape he hF⟩) fun hF => hblocks hF _ he) fun S' p hS hp => ?_
      obtain ⟨xBar, yBar⟩ := p
      refine grows_bind (grows_accumulate hG (ht.mono hS) hx hp.1 (hshape hx)) fun S'' t' hS' ht' => ?_
      cases yBar with
      | none => exact grows_pure ht'
      | some c => exact grows_accumulate hG ht' hy ((hp.2 c rfl).mono hS') (hshape hy)

/-- The sweep over nodes of `G`. -/
theorem grows_sweep (htr : ∀ s, R s → R s.transpose) (hG : IsGraph G) (hfit : ∀ e ∈ G, Fits F R T e)
    (hblocks : F → ∀ e ∈ G, e.Contractible) (hGS : G ⊆ S) {order : List (Expr α)}
    (horder : ∀ e ∈ order, e ∈ G) (ht : Fitted F G S t) :
    Grows (Fits F R T) S (order.foldlM Adjoints.step t) (Fitted F G) :=
  grows_foldlM (fun e he _ t' hS ht' =>
    grows_step (t := t') htr hG hfit hblocks (hGS.trans hS) ht' (horder e he)) ht

end Graph

/-! ## The values -/

section Value

variable {R : Type} [LocalScalar R] (env point rates : Nat → Dense R)

/-- The adjoint of every node of the list, where its operands fit, has a value of the shape of the
node. -/
def Sound (l : List (Expr R)) (t : Adjoints R) : Prop :=
  ∀ x ∈ l, ∀ bar, t[x.id]? = some bar → bar.Checked → ∃ w, bar.Computes env w ∧ w.shape = x.shape

/-- The operands of the adjoints fit, for the nodes of the list that depend on a symbol. -/
def Fit (l : List (Expr R)) (t : Adjoints R) : Prop :=
  ∀ x ∈ l, x.seeded = true → ∀ bar, t[x.id]? = some bar → bar.Checked

/-- The inner product of the adjoint of a node with its rate of change. -/
def pairing (t : Adjoints R) (x : Expr R) : R :=
  match t[x.id]? with
  | some bar => (bar.valueD env).inner (x.rate point rates)
  | none => 0

/-- The pairing of adjoints with rates of change, over the nodes of the list. -/
def total (l : List (Expr R)) (t : Adjoints R) : R := (l.map (pairing env point rates t)).sum

/-- From `t` to `t'` the nodes of the list receive adjoints that add `amount` to the pairing, and that
fit only if `P` holds. -/
structure Receives (l : List (Expr R)) (t t' : Adjoints R) (amount : R) (P : Prop) : Prop where
  sound : Sound env l t → Sound env l t'
  kept : ∀ i, (∀ x ∈ l, x.id ≠ i) → t'[i]? = t[i]?
  fit : Fit l t' → Fit l t ∧ P
  total : Sound env l t → Fit l t' → total env point rates l t' = total env point rates l t + amount

variable {env point rates} {l : List (Expr R)} {t t' t'' : Adjoints R} {amount amount' : R} {P P' : Prop}

theorem receives_refl (l : List (Expr R)) (t : Adjoints R) : Receives env point rates l t t 0 True :=
  ⟨fun h => h, fun _ _ => rfl, fun h => ⟨h, trivial⟩, fun _ _ => (add_zero _).symm⟩

theorem Receives.trans (h : Receives env point rates l t t' amount P)
    (h' : Receives env point rates l t' t'' amount' P') :
    Receives env point rates l t t'' (amount + amount') (P ∧ P') where
  sound hs := h'.sound (h.sound hs)
  kept i hi := (h'.kept i hi).trans (h.kept i hi)
  fit hf := ⟨(h.fit (h'.fit hf).1).1, (h.fit (h'.fit hf).1).2, (h'.fit hf).2⟩
  total hs hf := by rw [h'.total (h.sound hs) hf, h.total hs (h'.fit hf).1, add_assoc]

theorem Receives.imp (h : Receives env point rates l t t' amount P) (ha : P → amount = amount')
    (hP : P → P') : Receives env point rates l t t' amount' P' where
  sound := h.sound
  kept := h.kept
  fit hf := ⟨(h.fit hf).1, hP (h.fit hf).2⟩
  total hs hf := by rw [h.total hs hf, ha (h.fit hf).2]

theorem pairing_of_some {x bar : Expr R} (h : t[x.id]? = some bar) :
    pairing env point rates t x = (bar.valueD env).inner (x.rate point rates) := by
  unfold pairing; rw [h]

theorem pairing_of_none {x : Expr R} (h : t[x.id]? = none) : pairing env point rates t x = 0 := by
  unfold pairing; rw [h]

/-- A sum in which one term changes. -/
theorem sum_map_eq_add {l : List (Expr R)} (hl : (l.map Expr.id).Nodup) {x : Expr R} (hx : x ∈ l)
    {f g : Expr R → R} {d : R} (hother : ∀ y ∈ l, y.id ≠ x.id → f y = g y) (hself : f x = g x + d) :
    (l.map f).sum = (l.map g).sum + d := by
  induction l with
  | nil => cases hx
  | cons z l ih =>
    rw [List.map_cons, List.nodup_cons] at hl
    rw [List.map_cons, List.sum_cons, List.map_cons, List.sum_cons]
    rcases List.mem_cons.1 hx with rfl | hx
    · have hrest : l.map f = l.map g := List.map_congr_left fun y hy =>
        hother y (List.mem_cons_of_mem _ hy) fun hid => hl.1 (hid ▸ List.mem_map_of_mem hy)
      rw [hrest, hself, add_right_comm]
    · have hz : z.id ≠ x.id := fun hid => hl.1 (hid ▸ List.mem_map_of_mem hx)
      rw [hother z List.mem_cons_self hz, ih hl.2 hx (fun y hy => hother y (List.mem_cons_of_mem _ hy)),
        add_assoc]

/-- The node `x` receives a new adjoint in place of the one it has, or as its first one. -/
theorem receives_insert (hl : (l.map Expr.id).Nodup) {x d : Expr R} (hx : x ∈ l)
    (heval : x.Evaluated point)
    (hsound : Sound env l t → d.Checked → ∃ w, d.Computes env w ∧ w.shape = x.shape)
    (hfit : d.Checked → P ∧ ∀ bar, t[x.id]? = some bar → bar.Checked) {z : Dense R}
    (hvalue : Sound env l t → d.Checked → (d.valueD env).inner (x.rate point rates) =
      pairing env point rates t x + z.inner (x.rate point rates)) :
    Receives env point rates l t (t.insert x.id d) (z.inner (x.rate point rates))
      (x.seeded = true → P) := by
  have hsame : ∀ y ∈ l, y.id = x.id → y = x := fun y hy hid => List.inj_on_of_nodup_map hl hy hx hid
  have hself : (t.insert x.id d)[x.id]? = some d := Std.HashMap.getElem?_insert_self
  have hother {i : Nat} (hi : i ≠ x.id) : (t.insert x.id d)[i]? = t[i]? := by
    rw [Std.HashMap.getElem?_insert, if_neg (by simpa using hi.symm)]
  refine ⟨fun hs y hy bar hbar hchecked => ?_, fun i hi => hother (hi x hx).symm, fun hf => ?_,
    fun hs hf => ?_⟩
  · by_cases hid : y.id = x.id
    · rw [hsame y hy hid] at hbar ⊢
      rw [hself] at hbar
      cases hbar
      exact hsound hs hchecked
    · rw [hother hid] at hbar
      exact hs y hy bar hbar hchecked
  · have hd (hseed : x.seeded = true) := hfit (hf x hx hseed d hself)
    refine ⟨fun y hy hseed bar hbar => ?_, fun hseed => (hd hseed).1⟩
    by_cases hid : y.id = x.id
    · rw [hsame y hy hid] at hbar hseed
      exact (hd hseed).2 bar hbar
    · exact hf y hy hseed bar (by rw [hother hid]; exact hbar)
  · refine sum_map_eq_add hl hx (fun y _ hid => ?_) ?_
    · rw [pairing, pairing, hother hid]
    · rw [pairing, hself]
      -- a node that no symbol reaches does not change, whatever it receives
      cases hseed : x.seeded with
      | true => exact hvalue hs (hf x hx hseed d hself)
      | false =>
        have hzero := heval.rate_eq_zero rates hseed
        rw [pairing]
        cases t[x.id]? <;> simp only [hzero, Dense.inner_zero, add_zero]

/-- A contribution adds its inner product with the rate of change of the node that receives it. -/
theorem returns_accumulate (rates : Nat → Dense R) (hl : (l.map Expr.id).Nodup) {x c : Expr R} (hx : x ∈ l)
    (heval : x.Evaluated point) (hc : c.Checked → ∃ w, c.Computes env w ∧ w.shape = x.shape) :
    (t.accumulate x c).Returns fun t' => Receives env point rates l t t'
      ((c.valueD env).inner (x.rate point rates)) (x.seeded = true → c.Checked) := by
  cases h : t[x.id]? with
  | none =>
    rw [accumulate_of_none h]
    refine returns_pure (receives_insert hl hx heval (fun _ => hc) (fun hd => ⟨hd, fun bar hbar => ?_⟩)
      fun _ _ => ?_)
    · rw [h] at hbar
      cases hbar
    · rw [pairing_of_none h, zero_add]
  | some bar =>
    rw [accumulate_of_some h]
    -- the sum must be known as a node: only if it fits do both of its operands fit
    refine returns_bind (Q := fun d => ∃ i, d = .binary i .add bar c)
      (returns_newBinary fun i => ⟨i, rfl⟩) ?_
    rintro d ⟨i, rfl⟩
    have hsum (hs : Sound env l t) (hd : (Expr.binary i .add bar c).Checked) : ∃ w z,
        bar.Computes env w ∧ c.Computes env z ∧ w.shape = x.shape ∧ z.shape = x.shape ∧
          (Expr.binary i .add bar c).Computes env (w.add z) := by
      obtain ⟨w, hw, hws⟩ := hs x hx bar h (Expr.all_binary.1 hd).2.1
      obtain ⟨z, hz, hzs⟩ := hc (Expr.all_binary.1 hd).2.2
      exact ⟨w, z, hw, hz, hws, hzs, hw.binary hz (hw.check hz hd) rfl i⟩
    refine returns_pure (receives_insert hl hx heval (fun hs hd => ?_) (fun hd => ?_) fun hs hd => ?_)
    · obtain ⟨w, z, -, -, hws, -, hadd⟩ := hsum hs hd
      exact ⟨_, hadd, hws⟩
    · refine ⟨(Expr.all_binary.1 hd).2.2, fun bar' hbar' => ?_⟩
      rw [h] at hbar'
      exact Option.some.inj hbar' ▸ (Expr.all_binary.1 hd).2.1
    · obtain ⟨w, z, hw, hz, hws, hzs, hadd⟩ := hsum hs hd
      rw [pairing_of_some h, Expr.valueD_eq env hadd.value, Expr.valueD_eq env hw.value,
        Expr.valueD_eq env hz.value, Dense.add_inner (hws.trans hzs.symm)]

/-- What an operand receives from a node pairs with its rate of change as the adjoint of the node does
with the rate of change that follows. An operand that no symbol reaches does not change, so it does not
matter what it receives. -/
theorem returns_contribution (hl : (l.map Expr.id).Nodup) {x c bar : Expr R} (hx : x ∈ l)
    (heval : x.Evaluated point) (hb : x.Bound rates) {s : Shape} {rate : Dense R → Dense R}
    (hc : Contributes env bar s (x.valueD point).shape rate c)
    (hbar : bar.Checked → ∃ w, bar.Computes env w ∧ w.shape = s)
    (hzero : rate (.zero (x.valueD point).shape) = .zero s) :
    (t.accumulate x c).Returns fun t' => Receives env point rates l t t'
      ((bar.valueD env).inner (rate (x.rate point rates))) (x.seeded = true → bar.Checked) := by
  have hsound (h : c.Checked) : ∃ w, c.Computes env w ∧ w.shape = x.shape := by
    rw [← heval.shape_valueD]
    exact hc.sound hbar h
  refine (returns_accumulate rates hl hx heval hsound).imp fun t' ht' => ht'.imp (fun hP => ?_)
    fun hP hs y hy => hP hs y (hy.trans hc.below)
  refine hc.inner_eq hbar (heval.shape_rate hb) hzero ?_
  cases hseed : x.seeded with
  | true => exact .inl (hP hseed)
  | false => exact .inr (heval.rate_eq_zero rates hseed)

/-- The operand of a unary operation receives its adjoint. -/
theorem returns_step_unary (hl : (l.map Expr.id).Nodup) {i : Nat} {op : UnaryOp R} {x bar : Expr R}
    (h : t[i]? = some bar) (hx : x ∈ l) (he : (Expr.unary i op x).Evaluated point) (hb : x.Bound rates)
    (hbar : bar.Checked → ∃ w, bar.Computes env w ∧ w.shape = op.shape x.shape) :
    (t.step (.unary i op x)).Returns fun t' => Receives env point rates l t t'
      ((bar.valueD env).inner ((Expr.unary i op x).rate point rates)) (x.seeded = true → bar.Checked) := by
  unfold step
  rw [Expr.id, h]
  refine returns_bind (UnaryOp.returns_adjoint env (Expr.all_unary.1 he.checked).1) fun c hc => ?_
  rw [← he.unary.shape_valueD] at hc hbar
  refine returns_contribution hl hx he.unary hb hc hbar ?_
  rw [UnaryOp.eval_zero, UnaryOp.shape_eval]
  rfl

/-- The operands of a binary operation receive the parts of its adjoint. -/
theorem returns_step_binary (hl : (l.map Expr.id).Nodup) {i : Nat} {op : BinaryOp} {x y bar : Expr R}
    (h : t[i]? = some bar) (hx : x ∈ l) (hy : y ∈ l) (he : (Expr.binary i op x y).Evaluated point)
    (hb : (Expr.binary i op x y).Bound rates)
    (hnodes : ∀ z, Expr.Below z (Expr.binary i op x y) → z.Computes env (z.valueD point))
    (hbar : bar.Checked → ∃ w, bar.Computes env w ∧ w.shape = ((Expr.binary i op x y).valueD point).shape) :
    (t.step (.binary i op x y)).Returns fun t' => Receives env point rates l t t'
      ((bar.valueD env).inner ((Expr.binary i op x y).rate point rates))
      ((Expr.binary i op x y).seeded = true → bar.Checked) := by
  obtain ⟨hcheck, hv⟩ := he.eval_valueD
  obtain ⟨-, hbx, hby⟩ := Expr.all_binary.1 hb
  have hvx := hnodes x (Expr.below_of_operand (by simp [Expr.operands]))
  have hvy := hnodes y (Expr.below_of_operand (by simp [Expr.operands]))
  have hsx := he.binary.1.shape_rate hbx
  have hsy := he.binary.2.shape_rate hby
  have hleft := BinaryOp.shape_rateLeft hcheck hv hsx
  have hright := BinaryOp.shape_rateRight hcheck hv hsy
  -- the rate of change comes from both operands, and each of them receives its part
  have hrate : (bar.valueD env).inner ((Expr.binary i op x y).rate point rates) =
      (bar.valueD env).inner (op.rateLeft (x.valueD point) (y.valueD point)
        ((Expr.binary i op x y).valueD point) (x.rate point rates)) +
      (bar.valueD env).inner (op.rateRight (x.valueD point) (y.rate point rates)) := by
    rw [Expr.rate, BinaryOp.rate_eq_add hcheck hv hsx hsy, Dense.inner_add (hleft.trans hright.symm)]
  unfold step
  rw [Expr.id, h]
  refine returns_bind (BinaryOp.returns_adjoint hvx hvy (hnodes _ (.refl _)) hcheck hv) fun p hp => ?_
  obtain ⟨xBar, yBar⟩ := p
  obtain ⟨hxBar, hyBar⟩ := hp
  refine returns_bind (returns_contribution hl hx he.binary.1 hbx hxBar hbar
    (BinaryOp.rateLeft_zero hcheck hv)) fun t₁ ht₁ => ?_
  cases yBar with
  | none =>
    -- an assertion hands everything to its first operand
    obtain ⟨message, rfl⟩ := hyBar
    refine returns_pure (ht₁.imp (fun _ => ?_) fun hP hs => hP hs)
    rw [hrate]
    exact ((congrArg _ (Dense.inner_zero _ _)).trans (add_zero _)).symm
  | some c =>
    refine (returns_contribution hl hy he.binary.2 hby hyBar hbar
      (BinaryOp.rateRight_zero hcheck hv)).imp fun t₂ ht₂ => ?_
    refine (ht₁.trans ht₂).imp (fun _ => hrate.symm) fun hP hs => ?_
    rcases Expr.seeded_binary hs with hs | hs
    exacts [hP.1 hs, hP.2 hs]

/-- A node hands its adjoint down: its operands receive what it has. -/
theorem returns_step (hl : (l.map Expr.id).Nodup) {e : Expr R} (hops : ∀ x ∈ e.operands, x ∈ l)
    (he : e.Evaluated point) (hb : e.Bound rates)
    (hnodes : ∀ x, Expr.Below x e → x.Computes env (x.valueD point))
    (hbar : ∀ bar, t[e.id]? = some bar → bar.Checked → ∃ w, bar.Computes env w ∧ w.shape = e.shape)
    (hsymbol : e.isSymbol = false) :
    (t.step e).Returns fun t' => Receives env point rates l t t' (pairing env point rates t e)
      (e.seeded = true → ∀ bar, t[e.id]? = some bar → bar.Checked) := by
  cases h : t[e.id]? with
  | none =>
    rw [step_of_none h, pairing_of_none h]
    exact returns_pure ((receives_refl l t).imp (fun _ => rfl) fun _ _ bar hbar => by cases hbar)
  | some bar =>
    have hbar := hbar bar h
    have hsome {P : Prop} (hP : P → bar.Checked) (hs : P) :
        ∀ bar', some bar = some bar' → bar'.Checked := fun bar' heq => Option.some.inj heq ▸ hP hs
    rw [pairing_of_some h]
    cases e with
    | symbol => cases hsymbol
    | constant i m =>
      unfold step
      rw [h]
      refine returns_pure ((receives_refl l t).imp (fun _ => ?_) fun _ hs => by cases hs)
      exact (Dense.inner_zero _ _).symm
    | unary i op x =>
      rw [Expr.shape_unary] at hbar
      have hx : x ∈ l := hops x (by simp [Expr.operands])
      exact (returns_step_unary hl h hx he (Expr.all_unary.1 hb).2 hbar).imp fun t' ht' =>
        ht'.imp (fun _ => rfl) hsome
    | binary i op x y =>
      rw [← he.shape_valueD] at hbar
      have hx : x ∈ l := hops x (by simp [Expr.operands])
      have hy : y ∈ l := hops y (by simp [Expr.operands])
      exact (returns_step_binary hl h hx hy he hb hnodes hbar).imp fun t' ht' =>
        ht'.imp (fun _ => rfl) hsome

/-- The operands of what the symbols of the list are left with fit. -/
def SymbolsFit (l : List (Expr R)) (t : Adjoints R) : Prop :=
  ∀ e ∈ l, e.isSymbol = true → ∀ bar, t[e.id]? = some bar → bar.Checked

/-- From `start` to `t` the nodes of the list hand everything down to the symbols among them: if what the
symbols are left with fits, then so did everything at the start, and the pairing is the same. -/
structure Settles (env point rates : Nat → Dense R) (l : List (Expr R)) (start t : Adjoints R) : Prop where
  sound : Sound env l t
  kept : ∀ i, (∀ x ∈ l, x.id ≠ i) → t[i]? = start[i]?
  fit : SymbolsFit l t → Fit l start
  total : SymbolsFit l t → Adjoints.total env point rates l start =
    ((l.filter Expr.isSymbol).map (pairing env point rates t)).sum

omit [LocalScalar R] in
theorem SymbolsFit.tail {e : Expr R} (h : SymbolsFit (e :: l) t) : SymbolsFit l t :=
  fun x hx => h x (List.mem_cons_of_mem e hx)

theorem Sound.cons {e : Expr R} (he : t[e.id]? = t'[e.id]?) (h : Sound env (e :: l) t')
    (hl : Sound env l t) : Sound env (e :: l) t := by
  intro x hx bar hbar
  rcases List.mem_cons.1 hx with rfl | hx
  · exact h x List.mem_cons_self bar (he ▸ hbar)
  · exact hl x hx bar hbar

omit [LocalScalar R] in
theorem Fit.cons {e : Expr R} (he : e.seeded = true → ∀ bar, t[e.id]? = some bar → bar.Checked)
    (hl : Fit l t) : Fit (e :: l) t := by
  intro x hx
  rcases List.mem_cons.1 hx with rfl | hx
  exacts [he, hl x hx]

/-- A symbol keeps what it has. -/
theorem Settles.cons_symbol {e : Expr R} {start : Adjoints R} (h : Settles env point rates l start t)
    (hnew : ∀ x ∈ l, x.id ≠ e.id) (hs : Sound env (e :: l) start) (hsymbol : e.isSymbol = true) :
    Settles env point rates (e :: l) start t := by
  have hself : t[e.id]? = start[e.id]? := h.kept e.id hnew
  refine ⟨hs.cons hself h.sound, fun i hi => ?_, fun hfit => ?_, fun hfit => ?_⟩
  · exact h.kept i fun x hx => hi x (List.mem_cons_of_mem e hx)
  · refine (h.fit hfit.tail).cons fun _ bar hbar => ?_
    exact hfit e List.mem_cons_self hsymbol bar (hself ▸ hbar)
  · rw [List.filter_cons_of_pos hsymbol, List.map_cons, List.sum_cons, ← h.total hfit.tail, Adjoints.total,
      List.map_cons, List.sum_cons, pairing, pairing, hself, Adjoints.total]

/-- Another node has handed everything to nodes of the rest of the list. -/
theorem Settles.cons_of_receives {e : Expr R} {start t₁ : Adjoints R}
    (h : Settles env point rates l t₁ t) (hnew : ∀ x ∈ l, x.id ≠ e.id)
    (hs : Sound env (e :: l) start) (hsymbol : e.isSymbol = false)
    (hstep : Receives env point rates l start t₁ (pairing env point rates start e)
      (e.seeded = true → ∀ bar, start[e.id]? = some bar → bar.Checked)) :
    Settles env point rates (e :: l) start t := by
  have hkept {i : Nat} (hi : ∀ x ∈ l, x.id ≠ i) : t[i]? = start[i]? :=
    (h.kept i hi).trans (hstep.kept i hi)
  have hs' : Sound env l start := fun x hx => hs x (List.mem_cons_of_mem e hx)
  refine ⟨hs.cons (hkept hnew) h.sound, fun i hi => ?_, fun hfit => ?_, fun hfit => ?_⟩
  · exact hkept fun x hx => hi x (List.mem_cons_of_mem e hx)
  · obtain ⟨hstart, he⟩ := hstep.fit (h.fit hfit.tail)
    exact hstart.cons he
  · rw [List.filter_cons_of_neg (by simp [hsymbol]), ← h.total hfit.tail,
      hstep.total hs' (h.fit hfit.tail), add_comm]
    rfl

/-- The sweep over nodes that stand before their operands hands everything down to the symbols. -/
theorem returns_sweep (hl : Ordered l)
    (hnodes : ∀ e ∈ l, e.Evaluated point ∧ e.Bound rates ∧
      ∀ x, Expr.Below x e → x.Computes env (x.valueD point)) {start : Adjoints R}
    (hs : Sound env l start) :
    (l.foldlM Adjoints.step start).Returns (Settles env point rates l start) := by
  induction hl generalizing start with
  | nil => exact returns_pure ⟨hs, fun _ _ => rfl, fun _ _ hx => (List.not_mem_nil hx).elim, fun _ => rfl⟩
  | @cons e l hops hnew hord ih =>
    rw [List.foldlM_cons]
    obtain ⟨he, hb, hbelow⟩ := hnodes e List.mem_cons_self
    have hnodes' := fun x hx => hnodes x (List.mem_cons_of_mem e hx)
    have hs' : Sound env l start := fun x hx => hs x (List.mem_cons_of_mem e hx)
    cases hsymbol : e.isSymbol with
    | true =>
      rw [step_of_isSymbol start hsymbol, pure_bind]
      exact (ih hnodes' hs').imp fun t ht => ht.cons_symbol hnew hs hsymbol
    | false =>
      refine returns_bind (returns_step hord.nodup hops he hb hbelow (hs e List.mem_cons_self) hsymbol)
        fun t₁ ht₁ => ?_
      exact (ih hnodes' (ht₁.sound hs')).imp fun t ht => ht.cons_of_receives hnew hs hsymbol ht₁

end Value

end Adjoints

end Lyapunov
