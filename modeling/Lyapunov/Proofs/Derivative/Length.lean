/-
The length of the tape of a derivative. A sweep visits each node of the function once and creates a bounded
number of nodes there, whatever the number of its uses: at most four for a rate of change, and at most seven
to hand an adjoint down. So a direction adds a number of instructions that is linear in the length of the tape.
-/
import Lyapunov.Proofs.Derivative.Reverse
import Lyapunov.Proofs.Func.Length
import Lyapunov.Proofs.Graph.Numbers
import Lyapunov.Proofs.Graph.Spending

namespace Lyapunov

open Build

variable {α : Type} {T : Finset Nat} {n : Nat}

/-- The expression is within the numbers, provided that it is there. -/
def Expr.WithinOption (T : Finset Nat) (n : Nat) (o : Option (Expr α)) : Prop := ∀ e ∈ o, e.Within T n

/-- All expressions of the map are within the numbers. -/
def Expr.WithinMap (T : Finset Nat) (n : Nat) (t : Std.HashMap Nat (Expr α)) : Prop :=
  ∀ i : Nat, Expr.WithinOption T n t[i]?

namespace Expr

variable {t : Std.HashMap Nat (Expr α)} {x y : Expr α} {dx dy : Option (Expr α)}

theorem withinOption_none : WithinOption T n (none : Option (Expr α)) := fun _ h => by cases h

theorem withinOption_some (hx : x.Within T n) : WithinOption T n (some x) := fun _ h => by
  cases h
  exact hx

theorem withinMap_empty : WithinMap T n (∅ : Std.HashMap Nat (Expr α)) := fun i => by
  rw [Std.HashMap.getElem?_empty]
  exact withinOption_none

theorem WithinMap.insert (ht : WithinMap T n t) (i : Nat) (hx : x.Within T n) :
    WithinMap T n (t.insert i x) := forall_getElem?_insert ht i hx

theorem Within.unary {i : Nat} {op : UnaryOp α} (h : (Expr.unary i op x).Within T n) : x.Within T n :=
  (all_unary.1 h).2

theorem Within.binary {i : Nat} {op : BinaryOp} (h : (Expr.binary i op x y).Within T n) :
    x.Within T n ∧ y.Within T n := (all_binary.1 h).2

/-! ## Expressions that may be absent -/

theorem spends_addOption (hdx : WithinOption T n dx) (hdy : WithinOption T n dy) :
    Spends n 1 (addOption dx dy) (WithinOption T n) := by
  cases dx with
  | none => exact spends_pure hdy
  | some x =>
    cases dy with
    | none => exact spends_pure hdx
    | some y =>
      exact (spends_newBinary (hdx x rfl) (hdy y rfl) .add).map fun z hz => withinOption_some hz

theorem spends_mapOption {k : Nat} {f : Expr α → Build (Expr α)} (hdx : WithinOption T n dx)
    (hf : ∀ x : Expr α, x.Within T n → Spends n k (f x) (Within T n)) :
    Spends n k (mapOption f dx) (WithinOption T n) := by
  cases dx with
  | none => exact spends_pure withinOption_none
  | some x =>
    exact (hf x (hdx x rfl)).map fun z hz => withinOption_some hz

end Expr

/-! ## Rates of change -/

section Tangents

open Lyapunov.Expr

variable {t : Tangents α} {x y e : Expr α} {dx dy : Option (Expr α)}

theorem UnaryOp.spends_tangent (op : UnaryOp α) (hx : x.Within T n) :
    Spends n 1 (op.tangent x) (Within T n) := by
  cases op with
  | neg => exact spends_newUnary hx .neg
  | scale c => exact spends_newUnary hx (.scale c)
  | transpose => exact spends_newUnary hx .transpose
  | reshape s => exact spends_reshape hx s

/-- A product creates a product for each factor, and their sum. -/
theorem Expr.spends_productTangent (op : BinaryOp) (hx : x.Within T n) (hy : y.Within T n)
    (hdx : WithinOption T n dx) (hdy : WithinOption T n dy) :
    Spends n 3 (productTangent (newBinary op) x y dx dy) (WithinOption T n) := by
  refine spends_bind (k := 1) (l := 2) (spends_mapOption hdx fun z hz => spends_newBinary hz hy op)
    fun l hl => ?_
  refine spends_bind (k := 1) (l := 1) (spends_mapOption hdy fun z hz => spends_newBinary hx hz op)
    fun r hr => ?_
  exact spends_addOption hl hr

/-- No operation creates more nodes than the solution of a system. -/
theorem BinaryOp.spends_tangent (op : BinaryOp) {result : Expr α} (hresult : result.Within T n)
    (hx : x.Within T n) (hy : y.Within T n) (hdx : WithinOption T n dx) (hdy : WithinOption T n dy) :
    Spends n 4 (op.tangent result x y dx dy) (WithinOption T n) := by
  have hproduct (op : BinaryOp) := (spends_productTangent op hx hy hdx hdy).mono (Nat.le_succ 3)
  cases op with
  | add => exact (spends_addOption hdx hdy).mono (by decide)
  | matmul => exact hproduct .matmul
  | kron => exact hproduct .kron
  | kronContractLeft => exact hproduct .kronContractLeft
  | kronContractRight => exact hproduct .kronContractRight
  | solve =>
    refine spends_bind (k := 2) (l := 2) (spends_mapOption hdx fun dm hdm => ?_) fun fromMatrix hfrom => ?_
    · exact spends_bind (k := 1) (l := 1) (spends_newBinary hdm hresult .matmul) fun p hp =>
        spends_newUnary hp .neg
    · exact spends_bind (k := 1) (l := 1) (spends_addOption hdy hfrom) fun db hdb =>
        spends_mapOption hdb fun z hz => spends_newBinary hx hz .solve
  | assertion => exact spends_pure hdx

theorem Tangents.spends_step (ht : WithinMap T n t) (he : e.Within T n) :
    Spends n 4 (t.step e) (WithinMap T n) := by
  refine spends_bind (k := 4) (l := 0) (Q := WithinOption T n) ?_ fun o ho => ?_
  · cases e with
    | symbol | constant => exact spends_pure withinOption_none
    | unary i op x =>
      exact (spends_mapOption (ht x.id) fun dx hdx => op.spends_tangent hdx).mono (by decide)
    | binary i op x y => exact op.spends_tangent he he.binary.1 he.binary.2 (ht x.id) (ht y.id)
  · cases o with
    | none => exact spends_pure ht
    | some de => exact spends_pure (ht.insert _ (ho de rfl))

end Tangents

/-! ## Adjoints -/

section Adjoints

open Lyapunov.Expr

variable {t : Adjoints α} {x y e bar : Expr α}

theorem UnaryOp.spends_adjoint (op : UnaryOp α) (x : Expr α) (hbar : bar.Within T n) :
    Spends n 1 (op.adjoint x bar) (Within T n) := by
  cases op with
  | neg => exact spends_newUnary hbar .neg
  | scale c => exact spends_newUnary hbar (.scale c)
  | transpose => exact spends_newUnary hbar .transpose
  | reshape s => exact spends_reshape hbar x.shape

/-- Two products, one for each operand. -/
theorem spends_adjointPair {a b c d : Expr α} (op op' : BinaryOp) (ha : a.Within T n) (hb : b.Within T n)
    (hc : c.Within T n) (hd : d.Within T n) :
    Spends n 2 (do return (← newBinary op a b, some (← newBinary op' c d)))
      fun bars => bars.1.Within T n ∧ WithinOption T n bars.2 := by
  refine spends_bind (k := 1) (l := 1) (spends_newBinary ha hb op) fun xBar hxBar => ?_
  exact (spends_newBinary hc hd op').map fun yBar hyBar => ⟨hxBar, withinOption_some hyBar⟩

/-- No operation creates more nodes than the solution of a system. -/
theorem BinaryOp.spends_adjoint (op : BinaryOp) {result : Expr α} (hresult : result.Within T n)
    (hx : x.Within T n) (hy : y.Within T n) (hbar : bar.Within T n) :
    Spends n 5 (op.adjoint result x y bar) fun bars => bars.1.Within T n ∧ WithinOption T n bars.2 := by
  cases op with
  | add => exact spends_pure ⟨hbar, withinOption_some hbar⟩
  | matmul =>
    refine (spends_bind (k := 1) (l := 3) (spends_newUnary hy .transpose) fun yt hyt => ?_).mono (by decide)
    refine spends_bind (k := 1) (l := 2) (spends_newBinary hbar hyt .matmul) fun xBar hxBar => ?_
    refine spends_bind (k := 1) (l := 1) (spends_newUnary hx .transpose) fun xt hxt => ?_
    exact (spends_newBinary hxt hbar .matmul).map fun yBar hyBar => ⟨hxBar, withinOption_some hyBar⟩
  | kron =>
    exact (spends_adjointPair .kronContractLeft .kronContractRight hbar hy hbar hx).mono (by decide)
  | kronContractLeft => exact (spends_adjointPair .kron .kronContractRight hbar hy hx hbar).mono (by decide)
  | kronContractRight => exact (spends_adjointPair .kron .kronContractLeft hy hbar hx hbar).mono (by decide)
  | solve =>
    refine spends_bind (k := 1) (l := 4) (spends_newUnary hx .transpose) fun xt hxt => ?_
    refine spends_bind (k := 1) (l := 3) (spends_newBinary hxt hbar .solve) fun yBar hyBar => ?_
    refine spends_bind (k := 1) (l := 2) (spends_newUnary hresult .transpose) fun rt hrt => ?_
    refine spends_bind (k := 1) (l := 1) (spends_newBinary hyBar hrt .matmul) fun p hp => ?_
    exact (spends_newUnary hp .neg).map fun xBar hxBar => ⟨hxBar, withinOption_some hyBar⟩
  | assertion => exact spends_pure ⟨hbar, withinOption_none⟩

theorem Adjoints.spends_accumulate (ht : WithinMap T n t) (e : Expr α) (hbar : bar.Within T n) :
    Spends n 1 (t.accumulate e bar) (WithinMap T n) := by
  unfold accumulate
  have hold := ht e.id
  generalize t[e.id]? = found at hold ⊢
  cases found with
  | none => exact spends_pure (ht.insert _ hbar)
  | some old =>
    exact (spends_newBinary (hold old rfl) hbar .add).map fun z hz => ht.insert _ hz

theorem Adjoints.spends_step (ht : WithinMap T n t) (he : e.Within T n) :
    Spends n 7 (t.step e) (WithinMap T n) := by
  unfold step
  have hown := ht e.id
  generalize t[e.id]? = found at hown ⊢
  cases found with
  | none => exact spends_pure ht
  | some bar =>
    have hbar := hown bar rfl
    cases e with
    | symbol | constant => exact spends_pure ht
    | unary i op x =>
      exact (spends_bind (op.spends_adjoint x hbar) fun xBar hxBar => spends_accumulate ht x hxBar).mono
        (by decide)
    | binary i op x y =>
      refine spends_bind (k := 5) (l := 2) (op.spends_adjoint he he.binary.1 he.binary.2 hbar)
        fun (xBar, yBar) ⟨hxBar, hyBar⟩ => ?_
      refine spends_bind (k := 1) (l := 1) (spends_accumulate ht x hxBar) fun t' ht' => ?_
      cases yBar with
      | none => exact spends_pure ht'
      | some yBar => exact spends_accumulate ht' y (hyBar yBar rfl)

end Adjoints

/-! ## Directions -/

namespace Func

open Lyapunov.Expr

variable {f g : Func α} {order : List (Expr α)}

/-- What a direction adds to the outputs is within the numbers. -/
def WithinAdded (T : Finset Nat) (n : Nat) (r : Added α) : Prop := ∀ p ∈ r.2, p.2.Within T n

theorem spends_newSeeds (tag : String) (targets : List (String × Expr α)) :
    Spends n targets.length (newSeeds tag targets) fun seeds => ∀ p ∈ seeds, p.2.Within T n := by
  rw [← Nat.mul_one targets.length]
  exact spends_mapM fun p _ => (spends_newSymbol _ _).map fun e he => he

/-- Each target has its expression of the map as its result, or zeros. -/
theorem spends_results [Zero α] {t : Std.HashMap Nat (Expr α)} (ht : WithinMap T n t) (tag : String)
    (targets : List (String × Expr α)) :
    Spends n targets.length
      (targets.mapM fun (name, e) => return (tag ++ name, ← orZeros e.shape t[e.id]?))
      fun rs => ∀ p ∈ rs, p.2.Within T n := by
  rw [← Nat.mul_one targets.length]
  refine spends_mapM fun p _ => Spends.map ?_ fun e he => he
  have hresult := ht p.2.id
  generalize t[p.2.id]? = found at hresult ⊢
  cases found with
  | none => exact spends_zeros _
  | some e => exact spends_pure (hresult e rfl)

variable [Scalar α]

theorem spends_forwardDirection (horder : ∀ e ∈ order, e.Within T n) (direction : Nat) :
    Spends n (4 * order.length + f.inputs.length + f.outputs.length) (f.forwardDirection order direction)
      (WithinAdded T n) := by
  refine (spends_bind (k := f.inputs.length) (l := order.length * 4 + f.outputs.length)
    (spends_newSeeds (T := T) _ f.inputs) fun seeds hseeds => ?_).mono (by omega)
  refine spends_bind (spends_foldlM (fun e he t ht => Tangents.spends_step ht (horder e he))
    (f.forall_startTangents hseeds)) fun t ht => ?_
  exact (spends_results ht _ f.outputs).map fun rs hrs => hrs

theorem spends_reverseDirection (horder : ∀ e ∈ order, e.Within T n) (direction : Nat) :
    Spends n (7 * order.length + f.inputs.length + 2 * f.outputs.length) (f.reverseDirection order direction)
      (WithinAdded T n) := by
  -- an output may be one of several names of a node, so that its seed is added to another one
  refine (spends_bind (k := f.outputs.length)
    (l := f.outputs.length + (order.length * 7 + f.inputs.length))
    (spends_newSeeds (T := T) _ f.outputs) fun seeds hseeds => ?_).mono (by omega)
  have hstart : Spends n f.outputs.length (f.startAdjoints seeds) (WithinMap T n) := by
    refine (spends_foldlM (k := 1) (fun p hp t ht => ?_) withinMap_empty).mono ?_
    · exact Adjoints.spends_accumulate ht _ (hseeds _ (List.of_mem_zip hp).2)
    · rw [Nat.mul_one, List.length_zip]
      exact Nat.min_le_left _ _
  refine spends_bind hstart fun start hstart => ?_
  have hsweep : Spends n (order.length * 7) (order.reverse.foldlM Adjoints.step start) (WithinMap T n) := by
    rw [← List.length_reverse]
    exact spends_foldlM (fun e he t ht => Adjoints.spends_step ht (horder e (List.mem_reverse.1 he))) hstart
  refine spends_bind hsweep fun t ht => ?_
  exact (spends_results ht _ f.inputs).map fun rs hrs => hrs

/-! ## Derivatives -/

omit [Scalar α] in
/-- A function that extends `f` by directions has their nodes and no others. -/
theorem length_tape_le_of_spends (hf : f.NumberedBelow n) {m : Nat → Build (Added α)} {k c s : Nat}
    (hm : ∀ d, Spends n c (m d) (WithinAdded (orderNumbers (f.outputs.map (·.2))) n))
    (hs : (((List.range k).mapM m).run n).2 = s) (hg : g.NumberedBelow s)
    (houtputs : g.outputs = f.outputs ++ (((List.range k).mapM m).run n).1.flatMap (·.2)) :
    g.tape.length ≤ f.tape.length + k * c := by
  obtain ⟨hle, hcost, hadded⟩ := spends_mapM (fun d (_ : d ∈ List.range k) => hm d) n le_rfl
  rw [List.length_range, hs] at hcost
  have hwithin : ∀ e ∈ g.outputs.map (·.2), e.Within (orderNumbers (f.outputs.map (·.2))) n := by
    rw [houtputs, List.map_append]
    intro e he
    rcases List.mem_append.1 he with he | he
    · exact within_of_reachable hf.isDag (.root he) n
    · obtain ⟨p, hp, rfl⟩ := List.mem_map.1 he
      obtain ⟨r, hr, hp⟩ := List.mem_flatMap.1 hp
      exact hadded r hr p hp
  have hlength := length_topologicalOrder_le hg.isDag hwithin fun e he => hg.below e (g.mem_nodes_of_reachable he)
  have hcard := card_orderNumbers_le (f.outputs.map (·.2))
  rw [length_tape hf.isDag, length_tape hg.isDag]
  omega

/-- A derivative in `k` directions has a tape that is longer by at most `k` times a multiple of the length of
the tape, the inputs and the outputs, however often the nodes of the function are used. -/
theorem length_derivatives_le (hf : f.NumberedBelow n) (k : Nat) :
    (∀ g s, (f.forward k).run.run n = (.ok g, s) →
      g.tape.length ≤ f.tape.length + k * (4 * f.tape.length + f.inputs.length + f.outputs.length)) ∧
    ∀ g s, (f.reverse k).run.run n = (.ok g, s) →
      g.tape.length ≤ f.tape.length + k * (7 * f.tape.length + f.inputs.length + 2 * f.outputs.length) := by
  have horder : ∀ e ∈ topologicalOrder (f.outputs.map (·.2)), e.Within (orderNumbers (f.outputs.map (·.2))) n :=
    fun e he => within_of_reachable hf.isDag ((mem_topologicalOrder hf.isDag).1 he) n
  refine ⟨fun g s hg => ?_, fun g s hg => ?_⟩
  · rw [run_forward] at hg
    obtain ⟨hmake, hs⟩ := Prod.mk.inj hg
    obtain ⟨S, hext, -⟩ := exists_extension_forward (F := False) (R := fun _ => True) hf (fun h => h.elim) k
    have hcost := spends_forwardDirection (f := f) horder
    rw [← length_tape hf.isDag] at hcost
    exact length_tape_le_of_spends hf hcost hs (hs ▸ hext.numberedBelow hmake) (make_eq_ok hmake).2.2
  · rw [run_reverse] at hg
    obtain ⟨hmake, hs⟩ := Prod.mk.inj hg
    obtain ⟨S, hext, -⟩ := exists_extension_reverse (F := False) (R := fun _ => True) hf (fun _ _ => trivial)
      (fun h => h.elim) (fun h => h.elim) k
    have hcost := spends_reverseDirection (f := f) horder
    rw [← length_tape hf.isDag] at hcost
    exact length_tape_le_of_spends hf hcost hs (hs ▸ hext.numberedBelow hmake) (make_eq_ok hmake).2.2

/-- The derivatives of the square in two directions. -/
theorem length_derivatives_square : ∃ (f g h : Func ℚ) (s t : Nat), f.NumberedBelow 2 ∧ f.tape.length = 2 ∧
    (f.forward 2).run.run 2 = (.ok g, s) ∧ g.tape.length ≤ 22 ∧
    (f.reverse 2).run.run 2 = (.ok h, t) ∧ h.tape.length ≤ 36 := by
  obtain ⟨f, hi, ho, hf, hshape, -⟩ := exists_square
  have houtputs : f.outputs.map (·.2) = [square[1]] := by rw [ho]; rfl
  have hdag : IsDag [square[1]] := houtputs ▸ hf.isDag
  have hlength : f.tape.length = 2 := by
    rw [length_tape_of_outputs hdag houtputs, Expr.nodeCount_eq_card hdag]
    rfl
  have hnames : ∀ d < 2, (∀ x ∈ f.inputNames, directionTag "fwd" d ++ x ∉ f.inputNames) ∧
      ∀ x ∈ f.outputNames, directionTag "fwd" d ++ x ∉ f.outputNames := by
    simp only [inputNames, outputNames, hi, ho]
    decide
  have hnames' : ∀ d < 2, (∀ x ∈ f.outputNames, directionTag "adj" d ++ x ∉ f.inputNames) ∧
      ∀ x ∈ f.inputNames, directionTag "adj" d ++ x ∉ f.outputNames := by
    simp only [inputNames, outputNames, hi, ho]
    decide
  obtain ⟨g, s, hg⟩ := (exists_forward_iff hf 2).2 hnames
  obtain ⟨h, t, hh⟩ := (exists_reverse_iff hf (fun e he => hshape e he ▸ Nat.one_ne_zero) 2).2 hnames'
  obtain ⟨hforward, hreverse⟩ := length_derivatives_le hf 2
  have hgle := hforward g s hg
  have hhle := hreverse h t hh
  rw [hlength, hi, ho] at hgle hhle
  exact ⟨f, g, h, s, t, hf, hlength, hg, hgle, hh, hhle⟩

end Func

end Lyapunov
