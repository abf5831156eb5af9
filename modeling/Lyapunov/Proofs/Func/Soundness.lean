/-
Shapes are sound at run time. While the tape of a function is evaluated on arguments of the shapes of
its inputs, each slot holds a matrix of the shape of its node. So every slot that is read is filled
and every operation is given operands that it can be carried out on, but for one: a system without
equations has no solution for a right-hand side with columns.
-/
import Lyapunov.Proofs.Func.Nodes

namespace Lyapunov

variable {α : Type}

/-! ## What an operation needs -/

/-- The block of shape `t` from row `r` and column `c` on lies inside a matrix of shape `s`. -/
def Shape.HasBlock (s : Shape) (r c : Nat) (t : Shape) : Prop :=
  r + t.rows ≤ s.rows ∧ c + t.cols ≤ s.cols

/-- The operation can be carried out on a matrix of the given shape. -/
def UnaryOp.Defined : UnaryOp α → Shape → Prop
  | .reshape t, s => s.size = t.size
  | _, _ => True

/-- The operation can be carried out on matrices of the given shapes. A contraction divides by the
rows and columns of the factor and reads blocks of its first operand; an assertion reads the first
entry of its condition. -/
def BinaryOp.Defined : BinaryOp → Shape → Shape → Prop
  | .add, s, t => s = t
  | .matmul, s, t => s.cols = t.rows
  | .kron, _, _ => True
  | .kronContractLeft, s, t => (0 < t.rows ∧ 0 < t.cols) ∧
    ∀ i < s.rows / t.rows, ∀ j < s.cols / t.cols, s.HasBlock (i * t.rows) (j * t.cols) t
  | .kronContractRight, s, t => (0 < t.rows ∧ 0 < t.cols) ∧
    ∀ i < t.rows, ∀ j < t.cols, s.HasBlock (i * (s.rows / t.rows)) (j * (s.cols / t.cols))
      ⟨s.rows / t.rows, s.cols / t.cols⟩
  | .solve, s, t => (s.rows = s.cols ∧ s.rows = t.rows) ∧ (s.rows = 0 → t.cols = 0)
  | .assertion _, _, t => 0 < t.rows ∧ 0 < t.cols

/-- Block `i` of `k` among the blocks of `b` that fill `n` ends inside. -/
theorem mul_add_le_of_lt_div {i b n : Nat} (h : i < n / b) : i * b + b ≤ n := by
  calc i * b + b = (i + 1) * b := (Nat.succ_mul i b).symm
    _ ≤ n / b * b := Nat.mul_le_mul_right b h
    _ ≤ n := Nat.div_mul_le_self n b

theorem mul_div_add_div_le {i k n : Nat} (h : i < k) : i * (n / k) + n / k ≤ n := by
  calc i * (n / k) + n / k = (i + 1) * (n / k) := (Nat.succ_mul i _).symm
    _ ≤ k * (n / k) := Nat.mul_le_mul_right _ h
    _ ≤ n := Nat.mul_div_le n k

theorem BinaryOp.pos_of_blocksOf {s t : Shape} (h : blocksOf s t = true) : 0 < t.rows ∧ 0 < t.cols := by
  simp only [blocksOf, Shape.size, Bool.and_eq_true, bne_iff_ne, ne_eq, Nat.mul_eq_zero, not_or] at h
  exact ⟨Nat.pos_of_ne_zero h.1.1.1, Nat.pos_of_ne_zero h.1.1.2⟩

theorem UnaryOp.defined_of_check {op : UnaryOp α} {s : Shape} (h : op.check s = .ok ()) :
    op.Defined s := by
  cases op with
  | reshape t => exact UnaryOp.check_reshape.1 h
  | _ => trivial

/-- Operands that fit are all that an operation needs, save for a system without equations. -/
theorem BinaryOp.defined_of_check {op : BinaryOp} {s t : Shape} (h : op.check s t = .ok ()) :
    op.Defined s t ↔ ¬ (op = .solve ∧ s = ⟨0, 0⟩ ∧ 0 < t.cols) := by
  cases op with
  | add => simpa [Defined] using BinaryOp.check_add.1 h
  | matmul => simpa [Defined] using BinaryOp.check_matmul.1 h
  | kron => simp [Defined]
  | kronContractLeft =>
    have hpos := pos_of_blocksOf (Shape.require_eq_ok.1 h)
    simp only [Defined, reduceCtorEq, false_and, not_false_eq_true, iff_true]
    exact ⟨hpos, fun i hi j hj => ⟨mul_add_le_of_lt_div hi, mul_add_le_of_lt_div hj⟩⟩
  | kronContractRight =>
    have hpos := pos_of_blocksOf (Shape.require_eq_ok.1 h)
    simp only [Defined, reduceCtorEq, false_and, not_false_eq_true, iff_true]
    exact ⟨hpos, fun i hi j hj => ⟨mul_div_add_div_le hi, mul_div_add_div_le hj⟩⟩
  | solve =>
    obtain ⟨hsquare, hrows⟩ := BinaryOp.check_solve.1 h
    obtain ⟨r, c⟩ := s
    simp only at hsquare hrows
    subst hsquare
    simp only [Defined, hrows, Shape.mk.injEq, and_self, true_and]
    omega
  | assertion message =>
    have hscalar : t = .scalar := by simpa [Shape.isScalar] using Shape.require_eq_ok.1 h
    simp [Defined, hscalar, Shape.scalar]

section Eval

variable [Scalar α]

/-- A system without equations and with columns fails in its own way. -/
theorem BinaryOp.eval_eq_emptySystem {op : BinaryOp} {x y : Dense α}
    (h : op.check x.shape y.shape = .ok ()) :
    op.eval x y = .error .emptySystem ↔ op = .solve ∧ x.shape = ⟨0, 0⟩ ∧ 0 < y.cols := by
  cases op with
  | solve =>
    obtain ⟨hsquare, -⟩ := BinaryOp.check_solve.1 h
    have hshape : x.shape = ⟨0, 0⟩ ↔ x.rows = 0 :=
      ⟨congrArg Shape.rows, fun h0 => by
        show (⟨x.rows, x.cols⟩ : Shape) = ⟨0, 0⟩
        rw [show x.cols = x.rows from hsquare.symm, h0]⟩
    simp only [BinaryOp.eval, hshape, true_and]
    by_cases hcols : y.cols = 0
    · simp [hcols, pure, Except.pure]
    · by_cases hrows : x.rows = 0
      · simp [hcols, hrows, Nat.pos_of_ne_zero hcols, throw, throwThe, MonadExceptOf.throw]
      · cases hs : x.solve? y <;>
          simp [hcols, hrows, pure, Except.pure, throw, throwThe, MonadExceptOf.throw]
  | assertion message =>
    simp only [BinaryOp.eval]
    split <;> simp [pure, Except.pure, throw, throwThe, MonadExceptOf.throw]
  | _ => simp [BinaryOp.eval, pure, Except.pure]

end Eval

/-! ## One instruction -/

namespace Instr

/-- The arguments and slots that the instruction reads are there, and its operation can be carried
out on them. -/
def Defined (args slots : Array (Dense α)) : Instr α → Prop
  | .load position => position < args.size
  | .constant _ => True
  | .unary op x => ∃ a, slots[x]? = some a ∧ op.Defined a.shape
  | .binary op x y => ∃ a b, slots[x]? = some a ∧ slots[y]? = some b ∧ op.Defined a.shape b.shape

/-- The instruction solves a system without equations for a right-hand side with columns. -/
def SolvesEmpty (slots : Array (Dense α)) (instr : Instr α) : Prop :=
  ∃ x y a b, instr = .binary .solve x y ∧ slots[x]? = some a ∧ slots[y]? = some b ∧
    a.shape = ⟨0, 0⟩ ∧ 0 < b.cols

end Instr

namespace Tape

/-- The slots hold matrices of the shapes of the nodes `l`, the last one first. -/
def Shaped (l : List (Expr α)) (slots : Array (Dense α)) : Prop :=
  slots.toList.map (·.shape) = l.reverse.map (·.shape)

/-- The slot of a node is filled with a matrix of its shape. -/
theorem Partial.Holds.exists_slot {t : Partial α} {l : List (Expr α)} (h : t.Holds l)
    {slots : Array (Dense α)} (hslots : Shaped l slots) {x : Expr α} (hx : x ∈ l) :
    ∃ a, slots[t.slot x]? = some a ∧ a.shape = x.shape := by
  have hshape : (slots.toList.map (·.shape))[t.slot x]? = some x.shape := by
    rw [hslots, List.getElem?_map, h.slot x hx]; rfl
  rw [List.getElem?_map] at hshape
  obtain ⟨a, ha, hshape⟩ := Option.map_eq_some_iff.1 hshape
  exact ⟨a, by rwa [Array.getElem?_toList] at ha, hshape⟩

variable [Scalar α]

/-- What evaluating an instruction for a node of shape `s` comes to: it has all that it needs unless
it solves a system without equations, and its value has the shape of the node. -/
structure StepSound (args slots : Array (Dense α)) (instr : Instr α) (s : Shape) : Prop where
  defined : instr.Defined args slots ↔ ¬ instr.SolvesEmpty slots
  emptySystem : evalInstr args slots instr = .error .emptySystem ↔ instr.SolvesEmpty slots
  shape : ∀ v, evalInstr args slots instr = .ok v → v.shape = s

theorem getD_eq {slots : Array (Dense α)} {x : Nat} {a : Dense α} (h : slots[x]? = some a) :
    slots.getD x noValue = a := by
  rw [Array.getD_eq_getD_getElem?, h]; rfl

theorem stepSound_load {args slots : Array (Dense α)} {p : Nat} {a : Dense α}
    (ha : args[p]? = some a) : StepSound args slots (.load p) a.shape := by
  have heval : evalInstr args slots (.load p) = .ok a := congrArg Except.ok (getD_eq ha)
  refine ⟨?_, by simp [heval, Instr.SolvesEmpty], fun v hv => ?_⟩
  · simp [Instr.Defined, Instr.SolvesEmpty, (Array.getElem?_eq_some_iff.1 ha).1]
  · rw [heval] at hv
    cases hv
    rfl

theorem stepSound_constant (args slots : Array (Dense α)) (m : Dense α) :
    StepSound args slots (.constant m) m.shape := by
  refine ⟨by simp [Instr.Defined, Instr.SolvesEmpty], ?_, fun v hv => ?_⟩
  · simp [evalInstr, Instr.SolvesEmpty, pure, Except.pure]
  · cases hv
    rfl

theorem stepSound_unary {args slots : Array (Dense α)} {op : UnaryOp α} {x : Nat} {a : Dense α}
    (ha : slots[x]? = some a) (hcheck : op.check a.shape = .ok ()) :
    StepSound args slots (.unary op x) (op.shape a.shape) := by
  have heval : evalInstr args slots (.unary op x) = .ok (op.eval a) := by
    rw [← getD_eq ha]; rfl
  refine ⟨?_, by simp [heval, Instr.SolvesEmpty], fun v hv => ?_⟩
  · simp [Instr.Defined, Instr.SolvesEmpty, ha, UnaryOp.defined_of_check hcheck]
  · rw [heval] at hv
    cases hv
    exact UnaryOp.shape_eval op a

theorem stepSound_binary {args slots : Array (Dense α)} {op : BinaryOp} {x y : Nat} {a b : Dense α}
    (ha : slots[x]? = some a) (hb : slots[y]? = some b) (hcheck : op.check a.shape b.shape = .ok ()) :
    StepSound args slots (.binary op x y) (op.shape a.shape b.shape) := by
  have heval : evalInstr args slots (.binary op x y) = op.eval a b := by
    rw [← getD_eq ha, ← getD_eq hb]; rfl
  have hempty : Instr.SolvesEmpty slots (.binary op x y) ↔
      op = .solve ∧ a.shape = ⟨0, 0⟩ ∧ 0 < b.cols := by
    constructor
    · rintro ⟨_, _, a', b', hinstr, ha', hb', hshapes⟩
      cases hinstr
      rw [ha] at ha'
      rw [hb] at hb'
      cases ha'
      cases hb'
      exact ⟨rfl, hshapes⟩
    · rintro ⟨rfl, hshapes⟩
      exact ⟨x, y, a, b, rfl, ha, hb, hshapes⟩
  refine ⟨?_, ?_, fun v hv => ?_⟩
  · rw [hempty]
    refine Iff.trans ?_ (BinaryOp.defined_of_check hcheck)
    simp [Instr.Defined, ha, hb]
  · rw [heval, hempty]
    exact BinaryOp.eval_eq_emptySystem hcheck
  · rw [heval] at hv
    exact BinaryOp.shape_eval hcheck hv

/-- The step: where the slots of the operands hold matrices of their shapes, so will the slot of the
node. -/
theorem Partial.Holds.stepSound {positions : Std.HashMap Nat Nat} {t : Partial α}
    {l : List (Expr α)} (ht : t.Holds l) {args slots : Array (Dense α)} (hslots : Shaped l slots)
    {e : Expr α} (hops : ∀ x ∈ e.operands, x ∈ l)
    (hargs : ∀ p, positions[e.id]? = some p → e.isSymbol = true →
      ∃ a, args[p]? = some a ∧ a.shape = e.shape)
    {instr : Instr α} (h : t.instr positions e = .ok instr) :
    StepSound args slots instr e.shape := by
  unfold Partial.instr at h
  obtain ⟨⟨⟩, hcheck, hinstr⟩ := Except.bind_eq_ok.1 h
  cases e with
  | symbol i name s =>
    cases hp : positions[i]? with
    | none => simp only [hp] at hinstr; cases hinstr
    | some p =>
      simp only [hp] at hinstr
      cases hinstr
      obtain ⟨a, ha, hshape⟩ := hargs p hp rfl
      rw [← hshape]
      exact stepSound_load ha
  | constant i m =>
    cases hinstr
    exact stepSound_constant args slots m
  | unary i op x =>
    cases hinstr
    obtain ⟨a, ha, hx⟩ := ht.exists_slot hslots (hops x (by simp [Expr.operands]))
    rw [Expr.shape_unary, ← hx]
    exact stepSound_unary ha (by rw [hx]; exact hcheck)
  | binary i op x y =>
    cases hinstr
    obtain ⟨a, ha, hx⟩ := ht.exists_slot hslots (hops x (by simp [Expr.operands]))
    obtain ⟨b, hb, hy⟩ := ht.exists_slot hslots (hops y (by simp [Expr.operands]))
    rw [Expr.shape_binary, ← hx, ← hy]
    exact stepSound_binary ha hb (by rw [hx, hy]; exact hcheck)

/-! ## A run -/

/-- The values of the slots after the first `k` instructions, or the error of the first one of them
that fails. -/
def slotsAfter (t : Tape α) (args : Array (Dense α)) (k : Nat) : Except Error (Array (Dense α)) :=
  (⟨t.instrs.take k, t.outputs⟩ : Tape α).evalSlots args

theorem slotsAfter_length (t : Tape α) (args : Array (Dense α)) :
    t.slotsAfter args t.length = t.evalSlots args := by
  have htake : t.instrs.take t.instrs.size = t.instrs := by simp
  unfold slotsAfter length
  rw [htake]

theorem slotsAfter_succ {t : Tape α} {args : Array (Dense α)} {k : Nat} {instr : Instr α}
    (h : t.instrs[k]? = some instr) :
    t.slotsAfter args (k + 1) = (do
      let slots ← t.slotsAfter args k
      return slots.push (← evalInstr args slots instr)) := by
  obtain ⟨hlt, rfl⟩ := Array.getElem?_eq_some_iff.1 h
  have htake : t.instrs.take (k + 1) = (t.instrs.take k).push t.instrs[k] := by
    apply Array.toList_inj.1
    simp
  unfold slotsAfter evalSlots
  rw [htake, Array.foldlM_push]

/-- The run: as long as no instruction fails, the slots hold matrices of the shapes of the nodes. -/
theorem shaped_evalSlots {positions : Std.HashMap Nat Nat} {args : Array (Dense α)}
    {l : List (Expr α)} (hl : Ordered l)
    (hargs : ∀ e ∈ l, ∀ p, positions[e.id]? = some p → e.isSymbol = true →
      ∃ a, args[p]? = some a ∧ a.shape = e.shape) : ∀ {t : Partial α} {slots : Array (Dense α)},
    l.reverse.foldlM (Partial.push positions) .empty = .ok t →
    (⟨t.instrs, []⟩ : Tape α).evalSlots args = .ok slots → Shaped l slots := by
  -- by induction on the nodes, the last one first; the step is the last instruction
  induction hl with
  | nil =>
    intro t slots ht hslots
    cases ht
    cases hslots
    rfl
  | @cons e l hops _ hl ih =>
    intro t slots ht hslots
    rw [foldlM_reverse_cons] at ht
    obtain ⟨t', ht', hpush⟩ := Except.bind_eq_ok.1 ht
    obtain ⟨instr, hinstr, rfl⟩ := Partial.push_eq_ok.1 hpush
    unfold evalSlots at hslots
    rw [Array.foldlM_push] at hslots
    obtain ⟨slots', hslots', hlast⟩ := Except.bind_eq_ok.1 hslots
    obtain ⟨v, hv, hlast⟩ := Except.bind_eq_ok.1 hlast
    cases hlast
    have hshaped := ih (fun x hx => hargs x (List.mem_cons_of_mem _ hx)) ht' hslots'
    have hstep := (Partial.holds_foldlM_push hl ht').stepSound hshaped hops
      (hargs e List.mem_cons_self) hinstr
    show (slots'.push v).toList.map _ = (e :: l).reverse.map _
    rw [Array.toList_push, List.map_append, hshaped, List.reverse_cons, List.map_append,
      List.map_singleton, List.map_singleton, hstep.shape v hv]

/-- Where the arguments have the shapes of the symbols, every instruction of a compiled tape is sound:
it is the one for the node in its place, the slots before it hold matrices of the shapes of the nodes
before, and its own value has the shape of its node. -/
theorem stepSound_compile {inputs outputs : List (Expr α)} (hdag : IsDag outputs) {tape : Tape α}
    (h : compile inputs outputs = .ok tape) {args : Array (Dense α)}
    (hargs : ∀ e, Expr.Reachable outputs e → ∀ p, (positionsOf inputs)[e.id]? = some p →
      e.isSymbol = true → ∃ a, args[p]? = some a ∧ a.shape = e.shape)
    {before after : List (Expr α)} {e : Expr α}
    (hsplit : Expr.topologicalOrder outputs = before ++ e :: after) :
    ∃ t instr, before.foldlM (Partial.push (positionsOf inputs)) .empty = .ok t ∧
      t.instr (positionsOf inputs) e = .ok instr ∧ tape.instrs[before.length]? = some instr ∧
      ∀ slots, tape.slotsAfter args before.length = .ok slots →
        slots.toList.map (·.shape) = before.map (·.shape) ∧ StepSound args slots instr e.shape := by
  obtain ⟨t', ht', rfl⟩ := compile_eq_ok.1 h
  obtain ⟨l, hl, hord, hmem⟩ := Expr.topologicalOrder_spec hdag
  have hl' : l = after.reverse ++ e :: before.reverse := by
    rw [← List.reverse_reverse l, ← hl, hsplit]; simp
  -- compiling stops at the node, and goes on from there
  rw [hsplit, List.foldlM_append] at ht'
  obtain ⟨t, ht, hrest⟩ := Except.bind_eq_ok.1 ht'
  rw [List.foldlM_cons] at hrest
  obtain ⟨t₁, hpush, hrest⟩ := Except.bind_eq_ok.1 hrest
  obtain ⟨instr, hinstr, rfl⟩ := Partial.push_eq_ok.1 hpush
  obtain ⟨more, hmore⟩ := Partial.exists_instrs_append hrest
  have hord' : Ordered (e :: before.reverse) := (hl' ▸ hord).of_append
  obtain ⟨hops, hord''⟩ : (∀ x ∈ e.operands, x ∈ before.reverse) ∧ Ordered before.reverse := by
    cases hord' with
    | cons hops _ hord'' => exact ⟨hops, hord''⟩
  have ht'' : before.reverse.reverse.foldlM (Partial.push (positionsOf inputs)) .empty = .ok t := by
    rwa [List.reverse_reverse]
  have hholds := Partial.holds_foldlM_push hord'' ht''
  have hsize : t.instrs.size = before.length := by rw [hholds.size, List.length_reverse]
  refine ⟨t, instr, ht, hinstr, ?_, fun slots hslots => ?_⟩
  · show t'.instrs[before.length]? = some instr
    rw [hmore, ← hsize, Array.getElem?_append_left (by simp), Array.getElem?_push_size]
  · have htake : t'.instrs.take before.length = t.instrs := by
      apply Array.toList_inj.1
      rw [hmore, ← hsize]
      simp
    have hreach : ∀ x ∈ e :: before.reverse, Expr.Reachable outputs x := fun x hx =>
      (hmem x).1 (hl' ▸ List.mem_append_right _ hx)
    have hshaped : Shaped before.reverse slots :=
      shaped_evalSlots hord'' (fun x hx => hargs x (hreach x (List.mem_cons_of_mem _ hx))) ht''
        (htake ▸ hslots)
    refine ⟨?_, hholds.stepSound hshaped hops (hargs e (hreach e List.mem_cons_self)) hinstr⟩
    rw [hshaped, List.reverse_reverse]

omit [Scalar α] in
/-- A compiled tape has an instruction for each reachable node, and its outputs are among them. -/
theorem length_compile {inputs outputs : List (Expr α)} (hdag : IsDag outputs) {tape : Tape α}
    (h : compile inputs outputs = .ok tape) :
    tape.length = (Expr.topologicalOrder outputs).length ∧ ∀ slot ∈ tape.outputs, slot < tape.length := by
  obtain ⟨t, ht, rfl⟩ := compile_eq_ok.1 h
  obtain ⟨l, hl, hord, hmem⟩ := Expr.topologicalOrder_spec hdag
  rw [hl] at ht ⊢
  have hholds := Partial.holds_foldlM_push hord ht
  have hlength : t.instrs.size = l.reverse.length := by rw [hholds.size, List.length_reverse]
  refine ⟨hlength, fun slot hslot => ?_⟩
  obtain ⟨y, hy, rfl⟩ := List.mem_map.1 hslot
  show t.slot y < t.instrs.size
  rw [hlength]
  exact (List.getElem?_eq_some_iff.1 (hholds.slot y ((hmem y).2 (.root hy)))).1

end Tape

/-! ## Functions -/

namespace Func

variable [Scalar α]

/-- Arguments of the shapes of the inputs are in place for the symbols. -/
theorem NumberedBelow.exists_argument {f : Func α} {n : Nat} (h : f.NumberedBelow n)
    {args : List (Argument α)} (hargs : args.map (·.shape) = f.inputShapes) {e : Expr α}
    (he : e ∈ f.nodes) {p : Nat} (hp : (Tape.positionsOf (f.inputs.map (·.2)))[e.id]? = some p) :
    ∃ a, (args.map (·.toDense)).toArray[p]? = some a ∧ a.shape = e.shape := by
  obtain ⟨x, hx, hid⟩ := Tape.getElem_of_positionsOf hp
  rw [List.getElem?_map] at hx
  obtain ⟨input, hinput, rfl⟩ := Option.map_eq_some_iff.1 hx
  -- the input with the number of the node is the node
  have heq := h.graph.unique _ (f.input_mem_nodes (List.mem_of_getElem? hinput)) _ he hid
  have hshape : (args.map (·.shape))[p]? = some e.shape := by
    rw [hargs, inputShapes, List.getElem?_map, hinput, ← heq]; rfl
  rw [List.getElem?_map] at hshape
  obtain ⟨arg, harg, hshape⟩ := Option.map_eq_some_iff.1 hshape
  exact ⟨arg.toDense, by rw [List.getElem?_toArray, List.getElem?_map, harg]; rfl,
    by rw [Argument.shape_toDense, hshape]⟩

/-- On arguments that pass the check, each step of an evaluation reads slots that hold matrices of the
declared shapes of their nodes, can be carried out unless it solves a system without equations for a
right-hand side with columns, and writes a matrix of the declared shape of the node that it was
compiled from. -/
theorem stepSound_eval {f : Func α} {n : Nat} (h : f.NumberedBelow n) {args : List (Argument α)}
    (hargs : f.checkArguments args = .ok ()) :
    (f.tape.length = (Expr.topologicalOrder (f.outputs.map (·.2))).length ∧
      ∀ slot ∈ f.tape.outputs, slot < f.tape.length) ∧
    ∀ before e after, Expr.topologicalOrder (f.outputs.map (·.2)) = before ++ e :: after →
      ∃ t instr,
        before.foldlM (Tape.Partial.push (Tape.positionsOf (f.inputs.map (·.2)))) .empty = .ok t ∧
        t.instr (Tape.positionsOf (f.inputs.map (·.2))) e = .ok instr ∧
        f.tape.instrs[before.length]? = some instr ∧
        ∀ slots, f.tape.slotsAfter (args.map (·.toDense)).toArray before.length = .ok slots →
          slots.toList.map (·.shape) = before.map (·.shape) ∧
          Tape.StepSound (args.map (·.toDense)).toArray slots instr e.shape := by
  refine ⟨Tape.length_compile h.isDag f.tape_eq, fun before e after hsplit => ?_⟩
  refine Tape.stepSound_compile h.isDag f.tape_eq (fun x hx p hp _ => ?_) hsplit
  exact h.exists_argument (checkArguments_eq_ok.1 hargs) (f.mem_nodes_of_reachable hx) hp

/-- Each step of squaring 3 works with single numbers. -/
theorem stepSound_square : ∃ f : Func ℚ, f.NumberedBelow 2 ∧ f.checkArguments [.scalar 3] = .ok () ∧
    (∃ values, f.eval [.scalar 3] = .ok values) ∧
    ∀ before e after, Expr.topologicalOrder (f.outputs.map (·.2)) = before ++ e :: after →
      ∃ instr, f.tape.instrs[before.length]? = some instr ∧
        ∀ slots, f.tape.slotsAfter #[.ofScalar 3] before.length = .ok slots →
          Tape.StepSound #[.ofScalar 3] slots instr .scalar := by
  obtain ⟨f, hi, -, hf, hshape, values, hv⟩ := exists_square
  have hargs : f.checkArguments [.scalar 3] = .ok () :=
    checkArguments_eq_ok.2 (shapes_of_eval hv)
  refine ⟨f, hf, hargs, ⟨values, hv⟩, fun before e after hsplit => ?_⟩
  obtain ⟨t, instr, -, -, hinstr, hsound⟩ := (stepSound_eval hf hargs).2 before e after hsplit
  have he : e ∈ f.nodes := hf.order_mem_nodes e (by rw [hsplit]; simp)
  rw [hshape e he] at hsound
  exact ⟨instr, hinstr, fun slots hslots => (hsound slots hslots).2⟩

end Func

end Lyapunov
