/-
Tapes compute values. Compiling a graph gives every node a slot, its place in the topological order,
and the instruction in that slot computes the value of the node from the earlier slots: so evaluating
the tape evaluates the nodes in topological order and stops at the first one without a value.
-/
import Lyapunov.Proofs.Except
import Lyapunov.Proofs.Graph.Order
import Lyapunov.Proofs.Tape.Value

namespace Lyapunov.Tape

variable {α : Type}

/-! ## Positions of inputs -/

theorem mem_foldl_insert {i p : Nat} (entries : List (Expr α × Nat)) (m : Std.HashMap Nat Nat)
    (h : (entries.foldl (fun m (e, position) => m.insert e.id position) m)[i]? = some p) :
    (∃ q ∈ entries, q.1.id = i ∧ q.2 = p) ∨ m[i]? = some p := by
  induction entries generalizing m with
  | nil => exact .inr h
  | cons q entries ih =>
    rcases ih _ h with ⟨r, hr, k⟩ | h
    · exact .inl ⟨r, List.mem_cons_of_mem _ hr, k⟩
    · rw [Std.HashMap.getElem?_insert] at h
      split at h
      · rename_i hid
        cases h
        exact .inl ⟨q, List.mem_cons_self, by simpa using hid, rfl⟩
      · exact .inr h

theorem contains_foldl_insert (i : Nat) (entries : List (Expr α × Nat)) (m : Std.HashMap Nat Nat) :
    (entries.foldl (fun m (e, position) => m.insert e.id position) m).contains i = true ↔
      (∃ q ∈ entries, q.1.id = i) ∨ m.contains i = true := by
  induction entries generalizing m with
  | nil => simp
  | cons q entries ih =>
    rw [List.foldl_cons, ih, Std.HashMap.contains_insert]
    simp only [List.mem_cons, exists_eq_or_imp, Bool.or_eq_true, beq_iff_eq]
    rw [or_assoc, or_left_comm]

/-- A position is that of an input with the number. -/
theorem getElem_of_positionsOf {inputs : List (Expr α)} {i p : Nat}
    (h : (positionsOf inputs)[i]? = some p) : ∃ e, inputs[p]? = some e ∧ e.id = i := by
  rcases mem_foldl_insert _ _ h with ⟨⟨e, k⟩, hmem, hid, rfl⟩ | h
  · exact ⟨e, by simpa using List.mem_zipIdx_iff_getElem?.1 hmem, hid⟩
  · simp at h

/-- The numbers that have a position are those of the inputs. -/
theorem exists_positionsOf {inputs : List (Expr α)} {i : Nat} :
    (∃ p, (positionsOf inputs)[i]? = some p) ↔ ∃ e ∈ inputs, e.id = i := by
  rw [← Option.isSome_iff_exists, Std.HashMap.isSome_getElem?_eq_contains, positionsOf,
    contains_foldl_insert]
  simp only [Std.HashMap.contains_empty, Bool.false_eq_true, or_false]
  constructor
  · rintro ⟨q, hq, hid⟩
    exact ⟨q.1, List.fst_mem_of_mem_zipIdx hq, hid⟩
  · rintro ⟨e, he, hid⟩
    obtain ⟨k, hk⟩ := List.mem_iff_getElem?.1 he
    exact ⟨(e, k), List.mem_zipIdx_iff_getElem?.2 (by simpa using hk), hid⟩

theorem getElem?_foldl_insert_of_ne {i : Nat} {entries : List (Expr α × Nat)} (m : Std.HashMap Nat Nat)
    (h : ∀ q ∈ entries, q.1.id ≠ i) :
    (entries.foldl (fun m (e, position) => m.insert e.id position) m)[i]? = m[i]? := by
  induction entries generalizing m with
  | nil => rfl
  | cons q entries ih =>
    obtain ⟨hq, hrest⟩ := List.forall_mem_cons.1 h
    rw [List.foldl_cons, ih _ hrest, Std.HashMap.getElem?_insert, if_neg (by simpa using hq)]

/-- Further inputs do not change the positions of the others. -/
theorem getElem?_positionsOf_append {inputs more : List (Expr α)} {i : Nat} (h : ∀ x ∈ more, x.id ≠ i) :
    (positionsOf (inputs ++ more))[i]? = (positionsOf inputs)[i]? := by
  rw [positionsOf, List.zipIdx_append, List.foldl_append]
  exact getElem?_foldl_insert_of_ne _ fun q hq => h q.1 (List.fst_mem_of_mem_zipIdx hq)

/-! ## One instruction -/

theorem Partial.push_eq_ok {positions : Std.HashMap Nat Nat} {t t' : Partial α} {e : Expr α} :
    t.push positions e = .ok t' ↔ ∃ instr, t.instr positions e = .ok instr ∧
      t' = ⟨t.slots.insert e.id t.instrs.size, t.instrs.push instr⟩ := by
  unfold push
  rw [Except.bind_eq_ok]
  constructor
  · rintro ⟨instr, h, k⟩; cases k; exact ⟨instr, h, rfl⟩
  · rintro ⟨instr, h, rfl⟩; exact ⟨instr, h, rfl⟩

/-- There is an instruction for a node with operands that fit, unless it is a symbol without a
position. -/
theorem Partial.instr_eq_ok {positions : Std.HashMap Nat Nat} {t : Partial α} {e : Expr α} :
    (∃ instr, t.instr positions e = .ok instr) ↔
      e.checkOperands = .ok () ∧ (e.isSymbol = true → ∃ p, positions[e.id]? = some p) := by
  unfold instr
  constructor
  · rintro ⟨instr, h⟩
    obtain ⟨⟨⟩, hc, h⟩ := Except.bind_eq_ok.1 h
    refine ⟨hc, fun hs => ?_⟩
    cases e with
    | symbol i name s =>
      simp only [Expr.id]
      cases hp : positions[i]? with
      | none => simp only [hp] at h; cases h
      | some p => exact ⟨p, rfl⟩
    | _ => cases hs
  · rintro ⟨hc, hs⟩
    rw [hc]
    cases e with
    | symbol i name s =>
      obtain ⟨p, hp⟩ := hs rfl
      simp only [Expr.id] at hp
      exact ⟨.load p, by simp only [hp]; rfl⟩
    | constant i m => exact ⟨_, rfl⟩
    | unary i op x => exact ⟨_, rfl⟩
    | binary i op x y => exact ⟨_, rfl⟩

/-- There is none for a node whose operands do not fit, and then for a symbol without a position. -/
theorem Partial.instr_eq_error {positions : Std.HashMap Nat Nat} {t : Partial α} {e : Expr α}
    {err : Error} :
    t.instr positions e = .error err ↔ e.checkOperands = .error err ∨
      e.checkOperands = .ok () ∧ ∃ name, e.symbolName? = some name ∧ positions[e.id]? = none ∧
        err = .freeSymbol name := by
  unfold instr
  rw [Except.bind_eq_error, Unique.exists_iff]
  refine or_congr_right (and_congr_right fun _ => ?_)
  cases e with
  | symbol i name s =>
    simp only [Expr.id, Expr.symbolName?, Option.some.injEq, exists_eq_left']
    cases hp : positions[i]? with
    | none => exact ⟨fun h => ⟨rfl, by cases h; rfl⟩, fun h => h.2 ▸ rfl⟩
    | some p => exact ⟨fun h => (by cases h), fun h => (by cases h.1)⟩
  | _ =>
    constructor
    · intro h
      cases h
    · rintro ⟨_, h, -⟩
      cases h

section Eval

variable [Scalar α]

/-- The instruction for a node computes its value when the arguments are the values of the symbols
and the slots of the operands hold their values. -/
theorem evalInstr_instr {positions : Std.HashMap Nat Nat} {t : Partial α} {e : Expr α}
    {instr : Instr α} {args slots : Array (Dense α)} {env : Nat → Dense α}
    (hpos : ∀ i p, positions[i]? = some p → args.getD p noValue = env i)
    (hops : ∀ x ∈ e.operands, x.value env = .ok (slots.getD (t.slot x) noValue))
    (h : t.instr positions e = .ok instr) : evalInstr args slots instr = e.value env := by
  unfold Partial.instr at h
  obtain ⟨⟨⟩, -, h⟩ := Except.bind_eq_ok.1 h
  cases e with
  | symbol i name s =>
    cases hp : positions[i]? with
    | none => simp only [hp] at h; cases h
    | some p =>
      simp only [hp] at h
      cases h
      rw [Expr.value_symbol, ← hpos i p hp]; rfl
  | constant i m => cases h; rfl
  | unary i op x =>
    cases h
    rw [Expr.value_unary, hops x (by simp [Expr.operands])]; rfl
  | binary i op x y =>
    cases h
    rw [Expr.value_binary, hops x (by simp [Expr.operands]), hops y (by simp [Expr.operands])]; rfl

end Eval

/-! ## Compiling -/

/-- The partial tape for the nodes `l`, the last one first: one instruction for each node, and a
node's slot is its place. -/
structure Partial.Holds (t : Partial α) (l : List (Expr α)) : Prop where
  size : t.instrs.size = l.length
  slot : ∀ x ∈ l, l.reverse[t.slot x]? = some x

theorem Partial.Holds.cons {t : Partial α} {l : List (Expr α)} {e : Expr α} {instr : Instr α}
    (h : t.Holds l) (hnew : ∀ x ∈ l, x.id ≠ e.id) :
    Partial.Holds ⟨t.slots.insert e.id t.instrs.size, t.instrs.push instr⟩ (e :: l) := by
  refine ⟨by simp [h.size], fun x hx => ?_⟩
  rw [List.reverse_cons]
  rcases List.mem_cons.1 hx with rfl | hx
  · show (l.reverse ++ [x])[(t.slots.insert x.id t.instrs.size).getD x.id 0]? = some x
    simp [h.size]
  · have hs : ((t.slots.insert e.id t.instrs.size).getD x.id 0) = t.slot x := by
      rw [Std.HashMap.getD_insert, if_neg (by simpa using (hnew x hx).symm)]; rfl
    have hx' := h.slot x hx
    show (l.reverse ++ [e])[(t.slots.insert e.id t.instrs.size).getD x.id 0]? = some x
    rw [hs, List.getElem?_append_left (List.getElem?_eq_some_iff.1 hx').1, hx']

/-- Nodes in topological order have their slots in that order. -/
theorem Partial.holds_foldlM_push {positions : Std.HashMap Nat Nat} {l : List (Expr α)}
    (hl : Ordered l) : ∀ {t : Partial α},
    l.reverse.foldlM (Partial.push positions) .empty = .ok t → t.Holds l := by
  induction hl with
  | nil =>
    intro t h
    cases h
    exact ⟨rfl, by simp⟩
  | @cons e l _ hnew _ ih =>
    intro t h
    rw [foldlM_reverse_cons] at h
    obtain ⟨t', ht', h⟩ := Except.bind_eq_ok.1 h
    obtain ⟨instr, -, rfl⟩ := Partial.push_eq_ok.1 h
    exact (ih ht').cons hnew

theorem compile_eq_ok {inputs outputs : List (Expr α)} {tape : Tape α} :
    compile inputs outputs = .ok tape ↔
      ∃ t, (Expr.topologicalOrder outputs).foldlM (Partial.push (positionsOf inputs)) .empty = .ok t ∧
        tape = ⟨t.instrs, outputs.map t.slot⟩ := by
  unfold compile
  rw [Except.bind_eq_ok]
  constructor
  · rintro ⟨t, h, k⟩; cases k; exact ⟨t, h, rfl⟩
  · rintro ⟨t, h, rfl⟩; exact ⟨t, h, rfl⟩

/-- A list of nodes in topological order has a tape exactly when each of its nodes has an
instruction. -/
theorem exists_foldlM_push {positions : Std.HashMap Nat Nat} (l : List (Expr α)) :
    (∃ t, l.reverse.foldlM (Partial.push positions) .empty = .ok t) ↔
      ∀ e ∈ l, e.checkOperands = .ok () ∧ (e.isSymbol = true → ∃ p, positions[e.id]? = some p) := by
  induction l with
  | nil => exact ⟨by simp, fun _ => ⟨_, rfl⟩⟩
  | cons e l ih =>
    rw [foldlM_reverse_cons, List.forall_mem_cons, ← ih]
    constructor
    · rintro ⟨t, h⟩
      obtain ⟨t', ht', h⟩ := Except.bind_eq_ok.1 h
      obtain ⟨instr, hi, -⟩ := Partial.push_eq_ok.1 h
      exact ⟨Partial.instr_eq_ok.1 ⟨instr, hi⟩, t', ht'⟩
    · rintro ⟨he, t', ht'⟩
      obtain ⟨instr, hi⟩ : ∃ instr, t'.instr positions e = .ok instr := Partial.instr_eq_ok.2 he
      exact ⟨_, Except.bind_eq_ok.2 ⟨t', ht', Partial.push_eq_ok.2 ⟨instr, hi, rfl⟩⟩⟩

/-- A graph has a tape exactly when the operands of its nodes fit and its symbols are inputs. -/
theorem exists_compile {inputs outputs : List (Expr α)} (hdag : IsDag outputs) :
    (∃ tape, compile inputs outputs = .ok tape) ↔
      ∀ e, Expr.Reachable outputs e →
        e.checkOperands = .ok () ∧ (e.isSymbol = true → ∃ x ∈ inputs, x.id = e.id) := by
  obtain ⟨l, hl, -, hmem⟩ := Expr.topologicalOrder_spec hdag
  have hnodes := @exists_foldlM_push _ (positionsOf inputs) l
  simp only [hmem, exists_positionsOf, ← hl] at hnodes
  rw [← hnodes]
  constructor
  · rintro ⟨tape, h⟩
    obtain ⟨t, ht, -⟩ := compile_eq_ok.1 h
    exact ⟨t, ht⟩
  · rintro ⟨t, ht⟩
    exact ⟨_, compile_eq_ok.2 ⟨t, ht, rfl⟩⟩

/-- The first node in topological order that has no instruction gives the error. -/
theorem compile_eq_error {inputs outputs : List (Expr α)} {err : Error} :
    compile inputs outputs = .error err ↔
      ∃ before e after, Expr.topologicalOrder outputs = before ++ e :: after ∧
        (∀ x ∈ before, x.checkOperands = .ok () ∧ (x.isSymbol = true → ∃ y ∈ inputs, y.id = x.id)) ∧
        (e.checkOperands = .error err ∨ e.checkOperands = .ok () ∧ ∃ name, e.symbolName? = some name ∧
          (∀ y ∈ inputs, y.id ≠ e.id) ∧ err = .freeSymbol name) := by
  have hok (before : List (Expr α)) :
      (∃ t, before.foldlM (Partial.push (positionsOf inputs)) .empty = .ok t) ↔
        ∀ x ∈ before, x.checkOperands = .ok () ∧ (x.isSymbol = true → ∃ y ∈ inputs, y.id = x.id) := by
    have hnodes := @exists_foldlM_push _ (positionsOf inputs) before.reverse
    simpa only [List.reverse_reverse, List.mem_reverse, exists_positionsOf] using hnodes
  have hnone (i : Nat) : (positionsOf inputs)[i]? = none ↔ ∀ y ∈ inputs, y.id ≠ i := by
    rw [Option.eq_none_iff_forall_ne_some, ← not_exists, exists_positionsOf]
    simp
  have hpush (t : Partial α) (e : Expr α) (err : Error) :
      t.push (positionsOf inputs) e = .error err ↔ t.instr (positionsOf inputs) e = .error err := by
    rw [Partial.push, Except.bind_eq_error, or_iff_left]
    rintro ⟨_, -, h⟩
    cases h
  unfold compile
  rw [Except.bind_eq_error, or_iff_left (by rintro ⟨_, -, h⟩; cases h)]
  rw [Except.check_eq_error (fun _ e err => e.checkOperands = .error err ∨ e.checkOperands = .ok () ∧
    ∃ name, e.symbolName? = some name ∧ (∀ y ∈ inputs, y.id ≠ e.id) ∧ err = .freeSymbol name)
    (fun _ h => by cases h) fun before e after err h => ?_]
  · simp only [hok]
  · rw [List.foldlM_append, Except.bind_eq_error]
    simp only [List.foldlM_cons, List.foldlM_nil, bind_pure, hpush, Partial.instr_eq_error, hnone,
      exists_and_right]

/-- Where all symbols are inputs, only operands that do not fit are refused. -/
theorem compile_eq_error_of_symbols {inputs outputs : List (Expr α)} {err : Error}
    (hsymbols : ∀ e ∈ Expr.topologicalOrder outputs, e.isSymbol = true → ∃ x ∈ inputs, x.id = e.id) :
    compile inputs outputs = .error err ↔
      (Expr.topologicalOrder outputs).mapM (·.checkOperands) = .error err := by
  rw [compile_eq_error, Except.mapM_eq_error]
  constructor
  · rintro ⟨before, e, after, hsplit, hbefore, hfault⟩
    refine ⟨before, e, after, hsplit, fun x hx => ⟨(), (hbefore x hx).1⟩, hfault.resolve_right ?_⟩
    rintro ⟨-, name, hname, hfree, -⟩
    obtain ⟨x, hx, hid⟩ := hsymbols e (by rw [hsplit]; simp) (by rw [Expr.isSymbol, hname]; rfl)
    exact hfree x hx hid
  · rintro ⟨before, e, after, hsplit, hbefore, he⟩
    refine ⟨before, e, after, hsplit, fun x hx => ⟨?_, hsymbols x ?_⟩, .inl he⟩
    · obtain ⟨⟨⟩, h⟩ := hbefore x hx
      exact h
    · rw [hsplit]
      exact List.mem_append_left _ hx

/-! ## More outputs -/

/-- Of the positions an instruction looks at that of a symbol only. -/
theorem Partial.push_congr {positions positions' : Std.HashMap Nat Nat} {e : Expr α}
    (h : e.isSymbol = true → positions[e.id]? = positions'[e.id]?) (t : Partial α) :
    t.push positions e = t.push positions' e := by
  have hinstr : t.instr positions e = t.instr positions' e := by
    unfold instr
    cases e with
    | symbol i name s =>
      have hi : positions[i]? = positions'[i]? := h rfl
      simp only [hi]
    | _ => rfl
  rw [push, push, hinstr]

theorem Partial.foldlM_push_congr {positions positions' : Std.HashMap Nat Nat} {es : List (Expr α)}
    (h : ∀ e ∈ es, e.isSymbol = true → positions[e.id]? = positions'[e.id]?) (t : Partial α) :
    es.foldlM (Partial.push positions) t = es.foldlM (Partial.push positions') t := by
  induction es generalizing t with
  | nil => rfl
  | cons e es ih =>
    obtain ⟨he, hrest⟩ := List.forall_mem_cons.1 h
    rw [List.foldlM_cons, List.foldlM_cons, push_congr he]
    exact congrArg _ (funext fun t' => ih hrest t')

/-- Putting nodes on a tape keeps the instructions that are there. -/
theorem Partial.exists_instrs_append {positions : Std.HashMap Nat Nat} {es : List (Expr α)}
    {t t' : Partial α} (h : es.foldlM (Partial.push positions) t = .ok t') :
    ∃ more, t'.instrs = t.instrs ++ more := by
  induction es generalizing t with
  | nil =>
    cases h
    exact ⟨#[], by simp⟩
  | cons e es ih =>
    rw [List.foldlM_cons] at h
    obtain ⟨t₁, hpush, h⟩ := Except.bind_eq_ok.1 h
    obtain ⟨instr, -, rfl⟩ := Partial.push_eq_ok.1 hpush
    obtain ⟨more, hmore⟩ := ih h
    exact ⟨#[instr] ++ more, by rw [hmore, Array.push_eq_append, Array.append_assoc]⟩

/-- A tape for further inputs and outputs starts with the instructions for the others, provided that no
symbol of these is among the further inputs. -/
theorem compile_append {inputs outputs moreInputs moreOutputs : List (Expr α)} (hdag : IsDag outputs)
    (hnew : ∀ e, Expr.Reachable outputs e → e.isSymbol = true → ∀ x ∈ moreInputs, x.id ≠ e.id)
    {tape tape' : Tape α} (h : compile inputs outputs = .ok tape)
    (h' : compile (inputs ++ moreInputs) (outputs ++ moreOutputs) = .ok tape') :
    ∃ more, tape'.instrs = tape.instrs ++ more := by
  obtain ⟨t, ht, rfl⟩ := compile_eq_ok.1 h
  obtain ⟨t', ht', rfl⟩ := compile_eq_ok.1 h'
  obtain ⟨rest, hrest⟩ := Expr.topologicalOrder_append outputs moreOutputs
  rw [← hrest, List.foldlM_append, Partial.foldlM_push_congr fun e he hs =>
    getElem?_positionsOf_append (hnew e ((Expr.mem_topologicalOrder hdag).1 he) hs), ht] at ht'
  exact Partial.exists_instrs_append ht'

section Eval

variable [Scalar α]

/-- The slot of a node holds its value. -/
theorem Partial.Holds.value {t : Partial α} {l : List (Expr α)} (h : t.Holds l) {env : Nat → Dense α}
    {vs : List (Dense α)} (hvs : l.reverse.mapM (·.value env) = .ok vs) {x : Expr α} (hx : x ∈ l) :
    x.value env = .ok (vs.toArray.getD (t.slot x) noValue) := by
  have hvalues := Except.mapM_eq_ok.1 hvs
  obtain ⟨hlt, hget⟩ := List.getElem?_eq_some_iff.1 (h.slot x hx)
  have hlt' : t.slot x < vs.length := hvalues.length_eq ▸ hlt
  have hvalue := (List.forall₂_iff_get.1 hvalues).2 (t.slot x) hlt hlt'
  rw [List.get_eq_getElem, hget] at hvalue
  rw [hvalue]
  simp [Array.getD, hlt']

/-- Evaluating the instructions for some nodes takes the values of the nodes in order. -/
theorem foldlM_evalInstr {positions : Std.HashMap Nat Nat} {args : Array (Dense α)}
    {env : Nat → Dense α} (hpos : ∀ i p, positions[i]? = some p → args.getD p noValue = env i)
    {l : List (Expr α)} (hl : Ordered l) : ∀ {t : Partial α},
    l.reverse.foldlM (Partial.push positions) .empty = .ok t →
    t.instrs.foldlM (fun slots instr => return slots.push (← evalInstr args slots instr)) #[] =
      List.toArray <$> l.reverse.mapM (·.value env) := by
  -- by induction on the nodes, the last one first: the tape of the others is the one before it
  induction hl with
  | nil =>
    intro t h
    cases h
    rfl
  | @cons e l hops hnew hl ih =>
    intro t h
    rw [foldlM_reverse_cons] at h
    obtain ⟨t', ht', h⟩ := Except.bind_eq_ok.1 h
    obtain ⟨instr, hi, rfl⟩ := Partial.push_eq_ok.1 h
    rw [List.reverse_cons, List.mapM_append, Array.foldlM_push, ih ht']
    cases hv : l.reverse.mapM (·.value env) with
    | error err => rfl
    | ok vs =>
      have hslot : ∀ x ∈ e.operands, x.value env = .ok (vs.toArray.getD (t'.slot x) noValue) :=
        fun x hx => (Partial.holds_foldlM_push hl ht').value hv (hops x hx)
      have hinstr := evalInstr_instr hpos hslot hi
      show (do return vs.toArray.push (← evalInstr args vs.toArray instr)) = _
      rw [hinstr, List.mapM_cons, List.mapM_nil]
      cases e.value env with
      | error err => rfl
      | ok v => simp [Functor.map, Except.map, bind, Except.bind, pure, Except.pure]

/-- Evaluating a compiled tape takes the values of the reachable nodes in topological order, and
then those of the outputs. -/
theorem eval_compile {inputs outputs : List (Expr α)} (hdag : IsDag outputs) {tape : Tape α}
    (h : compile inputs outputs = .ok tape) {args : List (Dense α)} {env : Nat → Dense α}
    (hpos : ∀ i p, (positionsOf inputs)[i]? = some p → args[p]?.getD noValue = env i) :
    tape.eval args = (do
      let _ ← (Expr.topologicalOrder outputs).mapM (·.value env)
      outputs.mapM (·.value env)) := by
  obtain ⟨t, ht, rfl⟩ := compile_eq_ok.1 h
  obtain ⟨l, hl, hord, hmem⟩ := Expr.topologicalOrder_spec hdag
  rw [hl] at ht ⊢
  have hpos' : ∀ i p, (positionsOf inputs)[i]? = some p → args.toArray.getD p noValue = env i :=
    fun i p hp => by rw [← hpos i p hp, Array.getD_eq_getD_getElem?, List.getElem?_toArray]
  have hh := Partial.holds_foldlM_push hord ht
  unfold eval evalSlots
  rw [foldlM_evalInstr hpos' hord ht]
  cases hv : l.reverse.mapM (·.value env) with
  | error err => rfl
  | ok vs =>
    symm
    show outputs.mapM (·.value env) = .ok _
    rw [Except.mapM_eq_ok, List.map_map, List.forall₂_map_right_iff, List.forall₂_same]
    exact fun o ho => hh.value hv ((hmem o).2 (.root ho))

end Eval

end Lyapunov.Tape
