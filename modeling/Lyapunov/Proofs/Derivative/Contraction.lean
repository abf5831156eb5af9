/-
Reverse derivatives that do not exist. The adjoint of an output is handed down to everything below it, and
that of a Kronecker product is contracted with the factors. A contraction with an empty factor is refused,
so a function with an empty Kronecker product of an input has no reverse derivative.
-/
import Lyapunov.Proofs.Derivative.Reverse

namespace Lyapunov

open Build

variable {α : Type}

/-- Adjoints are handed down to all operands of the node, which holds of all operations but assertions. -/
def Expr.HandsDown : Expr α → Prop
  | .binary _ (.assertion _) _ _ => False
  | _ => True

/-! ## Contributions -/

/-- What an operand is given depends on the adjoint of the node. -/
theorem UnaryOp.returns_below_adjoint (op : UnaryOp α) (x bar : Expr α) :
    (op.adjoint x bar).Returns (Expr.Below bar) := by
  have hnew (op : UnaryOp α) : (Expr.newUnary op bar).Returns (Expr.Below bar) :=
    returns_newUnary fun i => Expr.below_of_operand (List.mem_singleton_self bar)
  cases op with
  | reshape s =>
    show (bar.reshape x.shape).Returns (Expr.Below bar)
    unfold Expr.reshape
    split
    · exact returns_pure (.refl bar)
    · exact hnew _
  | _ => exact hnew _

/-- The contributions to both operands of a node depend on its adjoint. -/
def BothBelow (bar : Expr α) (p : Expr α × Option (Expr α)) : Prop :=
  Expr.Below bar p.1 ∧ ∃ c, p.2 = some c ∧ Expr.Below bar c

theorem returns_bothBelow {m : Build (Expr α)} {k : Expr α → Build (Expr α)} {bar : Expr α}
    (hm : m.Returns (Expr.Below bar)) (hk : ∀ x, Expr.Below bar x → (k x).Returns (Expr.Below bar)) :
    Returns (do
      let x ← m
      let y ← k x
      return (x, some y)) (BothBelow bar) :=
  returns_bind hm fun x hx => returns_bind (hk x hx) fun y hy => returns_pure ⟨hx, y, rfl, hy⟩

theorem BinaryOp.returns_below_adjoint {op : BinaryOp} {i : Nat} {x y : Expr α}
    (h : (Expr.binary i op x y).HandsDown) (result bar : Expr α) :
    (op.adjoint result x y bar).Returns (BothBelow bar) := by
  have hleft (op : BinaryOp) (z : Expr α) : (Expr.newBinary op bar z).Returns (Expr.Below bar) :=
    returns_newBinary fun i => (Expr.Below.refl bar).binary_left i op z
  have hright (op : BinaryOp) (z : Expr α) : (Expr.newBinary op z bar).Returns (Expr.Below bar) :=
    returns_newBinary fun i => (Expr.Below.refl bar).binary_right i op z
  cases op with
  | add => exact returns_pure ⟨.refl bar, bar, rfl, .refl bar⟩
  | matmul =>
    refine returns_bind (returns_true _) fun yt _ => returns_bind (hleft .matmul yt) fun c hc => ?_
    refine returns_bind (returns_true _) fun xt _ => returns_bind (hright .matmul xt) fun d hd => ?_
    exact returns_pure ⟨hc, d, rfl, hd⟩
  | kron => exact returns_bothBelow (hleft _ y) fun _ _ => hleft _ x
  | kronContractLeft => exact returns_bothBelow (hleft _ y) fun _ _ => hright _ x
  | kronContractRight => exact returns_bothBelow (hright _ y) fun _ _ => hright _ x
  | solve =>
    refine returns_bind (returns_true _) fun xt _ => returns_bind (hright .solve xt) fun d hd => ?_
    refine returns_bind (returns_true _) fun rt _ => ?_
    refine returns_bind (returns_newBinary fun i => hd.binary_left i .matmul rt) fun c hc => ?_
    refine returns_bind (returns_newUnary fun i => ?_) fun c' hc' => returns_pure ⟨hc', d, rfl, hd⟩
    exact .operand (List.mem_singleton_self c) hc
  | assertion message => exact h.elim

/-! ## The adjoints -/

namespace Adjoints

variable {t t' t'' : Adjoints α}

/-- The node has an adjoint that depends on `c`. -/
def Has (t : Adjoints α) (e c : Expr α) : Prop := ∃ bar, t[e.id]? = some bar ∧ Expr.Below c bar

/-- Adjoints are replaced only by others that depend on them. -/
def Kept (t t' : Adjoints α) : Prop := ∀ e c, t.Has e c → t'.Has e c

theorem Kept.trans (h : Kept t t') (k : Kept t' t'') : Kept t t'' := fun e c hc => k e c (h e c hc)

theorem Has.of_below {e c d : Expr α} (h : t.Has e d) (hcd : Expr.Below c d) : t.Has e c := by
  obtain ⟨bar, hbar, hd⟩ := h
  exact ⟨bar, hbar, hcd.trans hd⟩

theorem kept_insert {e c bar : Expr α} (h : ∀ b, t[e.id]? = some b → Expr.Below b bar)
    (hc : Expr.Below c bar) : Kept t (t.insert e.id bar) ∧ Has (t.insert e.id bar) e c := by
  refine ⟨fun x d hd => ?_, bar, Std.HashMap.getElem?_insert_self, hc⟩
  obtain ⟨b, hb, hbelow⟩ := hd
  rw [Has, Std.HashMap.getElem?_insert]
  by_cases hid : e.id = x.id
  · rw [if_pos (beq_iff_eq.2 hid)]
    exact ⟨bar, rfl, hbelow.trans (h b (hid ▸ hb))⟩
  · rw [if_neg (by simpa using hid)]
    exact ⟨b, hb, hbelow⟩

theorem returns_accumulate_below (t : Adjoints α) (e c : Expr α) :
    (t.accumulate e c).Returns fun t' => Kept t t' ∧ t'.Has e c := by
  cases ht : t[e.id]? with
  | none =>
    rw [accumulate_of_none ht]
    refine returns_pure (kept_insert (fun b hb => ?_) (.refl c))
    rw [ht] at hb
    cases hb
  | some bar =>
    rw [accumulate_of_some ht]
    have hsum : (bar.add c).Returns fun b => Expr.Below bar b ∧ Expr.Below c b := returns_newBinary fun i =>
      ⟨(Expr.Below.refl bar).binary_left i .add c, (Expr.Below.refl c).binary_right i .add bar⟩
    refine returns_bind hsum fun b ⟨hbar, hc⟩ => returns_pure (kept_insert (fun b' hb' => ?_) hc)
    rw [ht] at hb'
    cases hb'
    exact hbar

/-- The operands of the node have adjoints that depend on `c`, and a factor of a Kronecker product has one
that depends on a contraction with the other. -/
structure HandedDown (t : Adjoints α) (e c : Expr α) : Prop where
  operands : ∀ x ∈ e.operands, t.Has x c
  kron : ∀ i a b, e = .binary i .kron a b → ∃ j bar, t.Has a (.binary j .kronContractLeft bar b)

theorem HandedDown.of_below {e c d : Expr α} (h : t.HandedDown e d) (hcd : Expr.Below c d) :
    t.HandedDown e c where
  operands x hx := (h.operands x hx).of_below hcd
  kron := h.kron

theorem handedDown_nil {e : Expr α} (h : e.operands = []) (t : Adjoints α) (c : Expr α) :
    t.HandedDown e c where
  operands x hx := by
    rw [h] at hx
    cases hx
  kron i a b he := by
    subst he
    cases h

theorem returns_step_unary_below {i : Nat} {op : UnaryOp α} {x bar : Expr α} (ht : t[i]? = some bar) :
    (t.step (.unary i op x)).Returns fun t' => Kept t t' ∧ t'.HandedDown (.unary i op x) bar := by
  unfold step
  rw [show t[(Expr.unary i op x).id]? = some bar from ht]
  refine returns_bind (op.returns_below_adjoint x bar) fun d hd => ?_
  refine (t.returns_accumulate_below x d).imp fun t' ⟨hkept, hx⟩ => ⟨hkept, ?_, fun _ _ _ h => by cases h⟩
  exact fun z hz => List.mem_singleton.1 hz ▸ hx.of_below hd

theorem returns_step_binary_below {i : Nat} {op : BinaryOp} {x y bar : Expr α}
    (he : (Expr.binary i op x y).HandsDown) (ht : t[i]? = some bar) :
    (t.step (.binary i op x y)).Returns fun t' => Kept t t' ∧ t'.HandedDown (.binary i op x y) bar := by
  -- for a Kronecker product the first contribution is the contraction itself
  have hkron : (op.adjoint (.binary i op x y) x y bar).Returns fun p => BothBelow bar p ∧
      (op = .kron → ∃ j, p.1 = .binary j .kronContractLeft bar y) := fun n => by
    refine ⟨BinaryOp.returns_below_adjoint he _ bar n, ?_⟩
    rintro rfl
    exact ⟨n, rfl⟩
  unfold step
  rw [show t[(Expr.binary i op x y).id]? = some bar from ht]
  refine returns_bind hkron fun p ⟨⟨hc, d, hp, hd⟩, hcontraction⟩ => ?_
  obtain ⟨c, o⟩ := p
  cases hp
  refine returns_bind (t.returns_accumulate_below x c) fun t₁ ⟨hkept₁, hx⟩ => ?_
  refine (t₁.returns_accumulate_below y d).imp fun t₂ ⟨hkept₂, hy⟩ => ⟨hkept₁.trans hkept₂, ?_, ?_⟩
  · intro z hz
    simp only [Expr.operands, List.mem_cons, List.not_mem_nil, or_false] at hz
    rcases hz with rfl | rfl
    · exact (hkept₂ _ _ hx).of_below hc
    · exact hy.of_below hd
  · intro j a b hab
    cases hab
    obtain ⟨j, rfl⟩ := hcontraction rfl
    exact ⟨j, bar, hkept₂ _ _ hx⟩

/-- A node with an adjoint hands it down. -/
theorem returns_step_below {e : Expr α} (he : e.HandsDown) (t : Adjoints α) :
    (t.step e).Returns fun t' => Kept t t' ∧ ∀ c, t.Has e c → t'.HandedDown e c := by
  cases ht : t[e.id]? with
  | none =>
    rw [step_of_none ht]
    refine returns_pure ⟨fun _ _ h => h, fun c ⟨bar, hbar, _⟩ => ?_⟩
    rw [ht] at hbar
    cases hbar
  | some bar =>
    have hstep : (t.step e).Returns fun t' => Kept t t' ∧ t'.HandedDown e bar := by
      cases e with
      | symbol i name s =>
        rw [step_of_isSymbol t rfl]
        exact returns_pure ⟨fun _ _ h => h, handedDown_nil rfl t bar⟩
      | constant i m =>
        unfold step
        rw [ht]
        exact returns_pure ⟨fun _ _ h => h, handedDown_nil rfl t bar⟩
      | unary i op x => exact returns_step_unary_below ht
      | binary i op x y => exact returns_step_binary_below he ht
    refine hstep.imp fun t' ⟨hkept, hdown⟩ => ⟨hkept, fun c ⟨b, hb, hc⟩ => ?_⟩
    rw [ht] at hb
    cases hb
    exact hdown.of_below hc

/-- A sweep keeps the adjoints that there are. -/
theorem returns_sweep_kept {l : List (Expr α)} (hl : ∀ e ∈ l, e.HandsDown) (t : Adjoints α) :
    (l.foldlM step t).Returns (Kept t) := by
  induction l generalizing t with
  | nil => exact returns_pure fun _ _ h => h
  | cons e l ih =>
    rw [List.foldlM_cons]
    refine returns_bind (returns_step_below (hl e List.mem_cons_self) t) fun t₁ ⟨hkept, _⟩ => ?_
    exact (ih (fun x hx => hl x (List.mem_cons_of_mem _ hx)) t₁).imp fun t' hkept' => hkept.trans hkept'

/-- After the sweep the factor of a Kronecker product has an adjoint with a contraction, provided that a
node above the product had an adjoint at the start. -/
theorem returns_sweep_contraction {l : List (Expr α)} (hl : Ordered l) (hhands : ∀ e ∈ l, e.HandsDown)
    {i : Nat} {a b y c : Expr α} (hy : y ∈ l) (hbelow : Expr.Below (.binary i .kron a b) y)
    {t : Adjoints α} (ht : t.Has y c) :
    (l.foldlM step t).Returns fun t' => ∃ j bar, t'.Has a (.binary j .kronContractLeft bar b) := by
  -- by induction on the nodes that are left; a node above the product is handled before the product is
  induction hl generalizing t y with
  | nil => cases hy
  | @cons e l hops _ _ ih =>
    have hl : ∀ x ∈ l, x.HandsDown := fun x hx => hhands x (List.mem_cons_of_mem _ hx)
    rw [List.foldlM_cons]
    refine returns_bind (returns_step_below (hhands e List.mem_cons_self) t) fun t₁ ⟨hkept, hstep⟩ => ?_
    rcases List.mem_cons.1 hy with rfl | hy
    · obtain ⟨hoperands, hkron⟩ := hstep c ht
      rcases Expr.below_iff.1 hbelow with heq | ⟨x, hx, hbelow⟩
      · obtain ⟨j, bar, hbar⟩ := hkron i a b heq.symm
        exact (returns_sweep_kept hl t₁).imp fun t' hkept' => ⟨j, bar, hkept' _ _ hbar⟩
      · exact ih hl (hops x hx) hbelow (hoperands x hx)
    · exact ih hl hy hbelow (hkept _ _ ht)

end Adjoints

/-! ## Functions -/

namespace Func

variable {f : Func α} {n : Nat}

/-- Every output has an adjoint at the start. -/
theorem returns_startAdjoints_has {tag : String} {seeds : List (String × Expr α)}
    (hseeds : List.Forall₂ (IsSeed tag) f.outputs seeds) :
    (f.startAdjoints seeds).Returns fun t => ∀ y ∈ f.outputs, ∃ c, t.Has y.2 c := by
  have hall (l : List ((String × Expr α) × String × Expr α)) (t : Adjoints α) :
      Returns (l.foldlM (fun (t : Adjoints α) p => t.accumulate p.1.2 p.2.2) t) fun t' =>
        Adjoints.Kept t t' ∧ ∀ p ∈ l, t'.Has p.1.2 p.2.2 := by
    induction l generalizing t with
    | nil => exact returns_pure ⟨fun _ _ h => h, fun _ hp => by cases hp⟩
    | cons p l ih =>
      rw [List.foldlM_cons]
      refine returns_bind (t.returns_accumulate_below p.1.2 p.2.2) fun t₁ ⟨hkept, hp⟩ => ?_
      exact (ih t₁).imp fun t' ht' =>
        ⟨hkept.trans ht'.1, List.forall_mem_cons.2 ⟨ht'.1 _ _ hp, ht'.2⟩⟩
  refine (hall (f.outputs.zip seeds) ∅).imp fun t ht y hy => ?_
  obtain ⟨seed, hseed⟩ := exists_mem_zip hseeds.length_eq hy
  exact ⟨_, ht.2 _ hseed⟩

variable [Scalar α]

/-- The adjoint of the factor of a Kronecker product is among the results of each direction. -/
theorem returns_reverseDirection_contraction (hf : f.NumberedBelow n) (hhands : ∀ e ∈ f.nodes, e.HandsDown)
    {p y : String × Expr α} (hp : p ∈ f.inputs) (hy : y ∈ f.outputs) {i : Nat} {b : Expr α}
    (hbelow : Expr.Below (.binary i .kron p.2 b) y.2) (direction : Nat) :
    (f.reverseDirection (Expr.topologicalOrder (f.outputs.map (·.2))) direction).Returns fun r =>
      ∃ q ∈ r.2, ∃ j bar, Expr.Below (.binary j .kronContractLeft bar b) q.2 := by
  obtain ⟨l, hl, hordered, hmem⟩ := Expr.topologicalOrder_spec hf.isDag
  rw [hl]
  refine returns_bind (returns_newSeeds (directionTag "adj" direction) f.outputs) fun seeds hseeds => ?_
  refine returns_bind (returns_startAdjoints_has hseeds) fun start hstart => ?_
  rw [List.reverse_reverse]
  obtain ⟨c, hc⟩ := hstart y hy
  have hhands : ∀ e ∈ l, e.HandsDown := fun e he => hhands e (f.mem_nodes_of_reachable ((hmem e).1 he))
  refine returns_bind (Adjoints.returns_sweep_contraction hordered hhands
    ((hmem _).2 (f.reachable_output hy)) hbelow hc) fun t ⟨j, bar, d, hd, hbelow⟩ => ?_
  have hzeros (x : String × Expr α) :
      (orZeros x.2.shape t[x.2.id]?).Returns fun e => ∀ d, t[x.2.id]? = some d → e = d := by
    cases t[x.2.id]? with
    | none => exact fun _ _ h => by cases h
    | some e => exact returns_pure fun d h => Option.some.inj h
  refine returns_bind (returns_mapM (Q := fun x r => ∀ d, t[x.2.id]? = some d → r.2 = d) fun x _ =>
    returns_bind (hzeros x) fun e he => returns_pure he) fun results hresults => returns_pure ?_
  obtain ⟨r, hr, hrd⟩ := Except.forall₂_exists_right hresults p hp
  exact ⟨r, hr, j, bar, hrd d hd ▸ hbelow⟩

/-- An empty Kronecker product of an input rules out the reverse derivatives. -/
theorem not_exists_reverse (hf : f.NumberedBelow n) (hhands : ∀ e ∈ f.nodes, e.HandsDown)
    {p y : String × Expr α} (hp : p ∈ f.inputs) (hy : y ∈ f.outputs) {i : Nat} {b : Expr α}
    (hbelow : Expr.Below (.binary i .kron p.2 b) y.2) (hempty : b.shape.size = 0) {k : Nat} (hk : 0 < k) :
    ¬ ∃ g n', (f.reverse k).run.run n = (.ok g, n') := by
  rintro ⟨g, n', hg⟩
  rw [run_reverse] at hg
  obtain ⟨S, hext, -⟩ := exists_extension_reverse (F := False) (R := fun _ => True) hf
    (fun _ _ => trivial) (fun h => h.elim) (fun h => h.elim) k
  obtain ⟨-, hchecks⟩ := (exists_make_iff (hext.store.graph.isDag hext.output_mem)).1 ⟨g, (Prod.mk.inj hg).1⟩
  have hadded : (f.reverseAdded k).Returns (List.Forall₂ (fun _ r =>
      ∃ q ∈ r.2, ∃ j bar, Expr.Below (.binary j .kronContractLeft bar b) q.2) (List.range k)) :=
    returns_mapM fun d _ => returns_reverseDirection_contraction hf hhands hp hy hbelow d
  obtain ⟨r, hr, q, hq, j, bar, hcontraction⟩ :=
    Except.forall₂_exists_right (hadded n) 0 (List.mem_range.2 hk)
  -- the contraction is a node of the derivative, with operands that do not fit
  have hreach : Expr.Reachable ((f.outputs ++ ((f.reverseAdded k).run n).1.flatMap (·.2)).map (·.2))
      (.binary j .kronContractLeft bar b) :=
    ⟨q.2, List.mem_map.2 ⟨q, List.mem_append_right _ (List.mem_flatMap.2 ⟨r, hr, hq⟩), rfl⟩, hcontraction⟩
  obtain ⟨hcheck, -⟩ := hchecks _ hreach
  have hblocks := Shape.require_eq_ok.1 hcheck
  rw [BinaryOp.blocksOf, hempty] at hblocks
  exact Bool.false_ne_true hblocks

end Func

end Lyapunov
