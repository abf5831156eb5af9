/-
The topological order of a graph. The search with an explicit stack visits the nodes as the
recursive search `visit` does; on a graph without cycles it lists every reachable node once, each
after its operands.
-/
import Mathlib.Data.List.Basic
import Lyapunov.Proofs.Graph.Reach

namespace Lyapunov

variable {α : Type}

/-! ## The recursive search -/

/-- The numbers of the nodes entered and the nodes left so far, the last one first. -/
structure Walk (α : Type) where
  entered : Std.HashSet Nat
  left : List (Expr α)

namespace Walk

def start : Walk α := ⟨∅, []⟩

def enter (w : Walk α) (e : Expr α) : Walk α := ⟨w.entered.insert e.id, w.left⟩

def leave (w : Walk α) (e : Expr α) : Walk α := ⟨w.entered, e :: w.left⟩

/-- Visits a node that was not entered before: its operands from left to right, then itself. -/
def visit (w : Walk α) (e : Expr α) : Walk α :=
  if w.entered.contains e.id then w
  else match e with
    | .symbol i name s => (w.enter (.symbol i name s)).leave (.symbol i name s)
    | .constant i m => (w.enter (.constant i m)).leave (.constant i m)
    | .unary i op x => ((w.enter (.unary i op x)).visit x).leave (.unary i op x)
    | .binary i op x y =>
      (((w.enter (.binary i op x y)).visit x).visit y).leave (.binary i op x y)

theorem visit_of_contains {w : Walk α} {e : Expr α} (h : w.entered.contains e.id = true) :
    w.visit e = w := by
  unfold visit; rw [if_pos h]

theorem visit_of_not_contains {w : Walk α} {e : Expr α} (h : w.entered.contains e.id = false) :
    w.visit e = (e.operands.foldl visit (w.enter e)).leave e := by
  unfold visit
  rw [if_neg (by simp [h])]
  cases e <;> rfl

/-- A node that was entered stays entered. -/
theorem contains_visit {w : Walk α} {i : Nat} (h : w.entered.contains i = true) (e : Expr α) :
    (w.visit e).entered.contains i = true := by
  have henter (w : Walk α) (e : Expr α) (h : w.entered.contains i = true) :
      (w.enter e).entered.contains i = true := by
    rw [enter, Std.HashSet.contains_insert, h, Bool.or_true]
  induction e generalizing w with
  | symbol | constant =>
    unfold visit
    split
    exacts [h, henter w _ h]
  | unary i op x ih =>
    unfold visit
    split
    exacts [h, ih (henter w _ h)]
  | binary i op x y ihx ihy =>
    unfold visit
    split
    exacts [h, ihy (ihx (henter w _ h))]

/-- Nodes on the stack are visited in turn. It makes no difference whether those that are entered already
are put on the stack. -/
theorem search_pending {entered : Std.HashSet Nat} {es : List (Expr α)}
    (hes : ∀ x ∈ es, ∀ (w : Walk α) (rest : List (Visit α)),
      Expr.search w.entered w.left (.enter x :: rest) =
        Expr.search (w.visit x).entered (w.visit x).left rest)
    {w : Walk α} (hw : ∀ i, entered.contains i = true → w.entered.contains i = true)
    (rest : List (Visit α)) :
    Expr.search w.entered w.left ((es.filter fun x => !entered.contains x.id).map .enter ++ rest) =
      Expr.search (es.foldl visit w).entered (es.foldl visit w).left rest := by
  induction es generalizing w with
  | nil => rfl
  | cons x es ih =>
    obtain ⟨hx, hes⟩ := List.forall_mem_cons.1 hes
    rw [List.filter_cons, List.foldl_cons]
    cases hc : entered.contains x.id with
    | true =>
      rw [visit_of_contains (hw _ hc)]
      exact ih hes hw
    | false =>
      exact (hx w _).trans (ih hes fun i hi => contains_visit (hw i hi) x)

/-- Visiting a node with the explicit stack comes back to the rest of the stack in the state of the
recursive visit. -/
theorem search_enter (w : Walk α) (e : Expr α) (rest : List (Visit α)) :
    Expr.search w.entered w.left (.enter e :: rest) =
      Expr.search (w.visit e).entered (w.visit e).left rest := by
  -- by induction on the weight of the node, which its operands lower
  induction hn : e.weight using Nat.strong_induction_on generalizing e w rest with
  | _ n ih =>
  subst hn
  cases hc : w.entered.contains e.id with
  | true =>
    rw [visit_of_contains hc, Expr.search, if_pos hc]
  | false =>
    have hops : ∀ x ∈ e.operands, ∀ (w : Walk α) (rest : List (Visit α)), _ := fun x hx w rest =>
      ih x.weight (Expr.weight_operand hx) w x rest rfl
    rw [visit_of_not_contains hc, Expr.search, if_neg (by simp [hc])]
    dsimp only
    rw [Visit.expand, List.append_assoc]
    refine (search_pending (w := w.enter e) hops (fun _ hi => hi) _).trans ?_
    rw [List.singleton_append, Expr.search]
    rfl

theorem search_map_enter (w : Walk α) (roots : List (Expr α)) :
    Expr.search w.entered w.left (roots.map .enter) = (roots.foldl visit w).left.reverse := by
  induction roots generalizing w with
  | nil => rw [List.map_nil, Expr.search]; rfl
  | cons r roots ih => rw [List.map_cons, search_enter, ih, List.foldl_cons]

end Walk

/-- The nodes in the order in which the recursive search leaves them, from one root after the other. -/
def Expr.postorder (roots : List (Expr α)) : List (Expr α) :=
  (roots.foldl Walk.visit Walk.start).left.reverse

/-- The explicit stack and the recursive search list the same nodes in the same order. -/
theorem Expr.topologicalOrder_eq (roots : List (Expr α)) :
    Expr.topologicalOrder roots = Expr.postorder roots :=
  Walk.search_map_enter Walk.start roots

/-! ## More roots -/

/-- A visit adds nodes to those left so far and keeps these. -/
theorem Walk.suffix_visit (w : Walk α) (e : Expr α) : w.left <:+ (w.visit e).left := by
  induction e generalizing w with
  | symbol | constant =>
    unfold visit
    split
    · exact List.suffix_refl _
    · exact List.suffix_cons _ _
  | unary i op x ih =>
    unfold visit
    split
    · exact List.suffix_refl _
    · exact (ih (w.enter (.unary i op x))).trans (List.suffix_cons _ _)
  | binary i op x y ihx ihy =>
    unfold visit
    split
    · exact List.suffix_refl _
    · exact ((ihx (w.enter (.binary i op x y))).trans (ihy _)).trans (List.suffix_cons _ _)

theorem Walk.suffix_foldl_visit (w : Walk α) (es : List (Expr α)) : w.left <:+ (es.foldl visit w).left := by
  induction es generalizing w with
  | nil => exact List.suffix_refl _
  | cons e es ih => exact (w.suffix_visit e).trans (ih (w.visit e))

/-- Further roots do not disturb the order of the nodes that the others can reach. -/
theorem Expr.topologicalOrder_append (roots more : List (Expr α)) :
    Expr.topologicalOrder roots <+: Expr.topologicalOrder (roots ++ more) := by
  rw [topologicalOrder_eq, topologicalOrder_eq, postorder, postorder, List.foldl_append, List.reverse_prefix]
  exact Walk.suffix_foldl_visit _ more

/-! ## Lists in which operands come later -/

/-- Nodes without repetition, each one standing before its operands. The nodes left by a search,
the last one first, are such a list. -/
inductive Ordered : List (Expr α) → Prop where
  | nil : Ordered []
  | cons {e : Expr α} {l : List (Expr α)} : (∀ x ∈ e.operands, x ∈ l) → (∀ x ∈ l, x.id ≠ e.id) →
      Ordered l → Ordered (e :: l)

/-- With a node such a list holds all nodes below it. -/
theorem Ordered.mem_of_below {l : List (Expr α)} (h : Ordered l) {e x : Expr α} (he : e ∈ l)
    (hx : Expr.Below x e) : x ∈ l := by
  induction h generalizing e with
  | nil => cases he
  | @cons a l hops _ _ ih =>
    rcases List.mem_cons.1 he with rfl | he
    · rcases Expr.below_iff.1 hx with rfl | ⟨y, hy, hb⟩
      · exact List.mem_cons_self
      · exact List.mem_cons_of_mem _ (ih (hops y hy) hb)
    · exact List.mem_cons_of_mem _ (ih he hx)

theorem Ordered.nodup {l : List (Expr α)} (h : Ordered l) : (l.map Expr.id).Nodup := by
  induction h with
  | nil => exact .nil
  | @cons e l _ hnew _ ih =>
    refine List.nodup_cons.2 ⟨fun hmem => ?_, ih⟩
    obtain ⟨x, hx, hid⟩ := List.mem_map.1 hmem
    exact hnew x hx hid

theorem Ordered.of_append {l m : List (Expr α)} (h : Ordered (l ++ m)) : Ordered m := by
  induction l with
  | nil => exact h
  | cons e l ih =>
    cases h with
    | cons _ _ h => exact ih h

/-- A fold over such a list in reverse ends with the step for its first node. -/
theorem foldlM_reverse_cons {m : Type → Type} [Monad m] [LawfulMonad m] {β γ : Type}
    (f : β → γ → m β) (b : β) (e : γ) (l : List γ) :
    (e :: l).reverse.foldlM f b = l.reverse.foldlM f b >>= (f · e) := by
  rw [List.reverse_cons, List.foldlM_append]
  simp only [List.foldlM_cons, List.foldlM_nil, bind_pure]

namespace Walk

/-- The state of a search in the graph `S` while some nodes wait for their operands: the numbers
entered are those of the nodes left and those that wait. -/
structure Sound (S : Set (Expr α)) (waiting : Nat → Prop) (w : Walk α) : Prop where
  entered : ∀ i, w.entered.contains i = true ↔ (∃ x ∈ w.left, x.id = i) ∨ waiting i
  ordered : Ordered w.left
  mem : ∀ x ∈ w.left, x ∈ S

theorem sound_start (S : Set (Expr α)) : (start : Walk α).Sound S fun _ => False :=
  ⟨by simp [start], .nil, by simp [start]⟩

/-- A node that is entered waits for its operands. -/
theorem Sound.enter {S : Set (Expr α)} {waiting : Nat → Prop} {w : Walk α} (h : w.Sound S waiting)
    (e : Expr α) : (w.enter e).Sound S fun i => waiting i ∨ i = e.id := by
  refine ⟨fun i => ?_, h.ordered, h.mem⟩
  simp only [Walk.enter, Std.HashSet.contains_insert, Bool.or_eq_true, beq_iff_eq, h.entered]
  constructor
  · rintro (hi | hi | hi)
    exacts [.inr (.inr hi.symm), .inl hi, .inr (.inl hi)]
  · rintro (hi | hi | hi)
    exacts [.inr (.inl hi), .inr (.inr hi), .inl hi.symm]

/-- A node can be left once its operands have been. -/
theorem Sound.leave {S : Set (Expr α)} {waiting : Nat → Prop} {w : Walk α} {e : Expr α}
    (h : w.Sound S fun i => waiting i ∨ i = e.id) (he : e ∈ S) (hops : ∀ x ∈ e.operands, x ∈ w.left)
    (hnew : ∀ x ∈ w.left, x.id ≠ e.id) : (w.leave e).Sound S waiting := by
  refine ⟨fun i => ?_, .cons hops hnew h.ordered, fun x hx => ?_⟩
  · simp only [Walk.leave, h.entered, List.mem_cons, exists_eq_or_imp]
    constructor
    · rintro (hi | hi | hi)
      exacts [.inl (.inr hi), .inr hi, .inl (.inl hi.symm)]
    · rintro ((hi | hi) | hi)
      exacts [.inr (.inr hi.symm), .inl hi, .inr (.inl hi)]
  · rcases List.mem_cons.1 hx with rfl | hx
    · exact he
    · exact h.mem x hx

/-- What a visit does: it leaves the nodes below the one visited and no others. -/
structure Visited (w : Walk α) (es : List (Expr α)) (w' : Walk α) : Prop where
  suffix : w.left <:+ w'.left
  all : ∀ e ∈ es, e ∈ w'.left
  only : ∀ x ∈ w'.left, x ∈ w.left ∨ Expr.Reachable es x

theorem visited_foldl {S : Set (Expr α)} {waiting : Nat → Prop} (es : List (Expr α))
    (h : ∀ e ∈ es, ∀ w : Walk α, w.Sound S waiting →
      (w.visit e).Sound S waiting ∧ w.Visited [e] (w.visit e))
    (w : Walk α) (hw : w.Sound S waiting) :
    (es.foldl visit w).Sound S waiting ∧ w.Visited es (es.foldl visit w) := by
  induction es generalizing w with
  | nil => exact ⟨hw, List.suffix_refl _, by simp, fun x hx => .inl hx⟩
  | cons e es ih =>
    obtain ⟨h1, v1⟩ := h e List.mem_cons_self w hw
    obtain ⟨h2, v2⟩ := ih (fun e he => h e (List.mem_cons_of_mem _ he)) (w.visit e) h1
    refine ⟨h2, v1.suffix.trans v2.suffix, fun x hx => ?_, fun x hx => ?_⟩
    · rcases List.mem_cons.1 hx with rfl | hx
      · exact v2.suffix.subset (v1.all x (List.mem_singleton_self x))
      · exact v2.all x hx
    · rcases v2.only x hx with hx | hx
      · exact (v1.only x hx).imp_right fun hr => hr.mono (by simp)
      · exact .inr (hx.mono fun _ => List.mem_cons_of_mem _)

/-- A visit keeps the state sound, provided that nothing below the node waits for it. -/
theorem sound_visit {S : Set (Expr α)} (hS : IsGraph S) : ∀ {e : Expr α} {waiting : Nat → Prop},
    e ∈ S → (∀ x, Expr.Below x e → ¬ waiting x.id) → ∀ w : Walk α, w.Sound S waiting →
    (w.visit e).Sound S waiting ∧ w.Visited [e] (w.visit e) := by
  intro e
  -- by induction on the weight of the node, which its operands lower
  induction hn : e.weight using Nat.strong_induction_on generalizing e with
  | _ n ih =>
  subst hn
  intro waiting he hwait w hw
  cases hc : w.entered.contains e.id with
  | true =>
    rw [visit_of_contains hc]
    refine ⟨hw, List.suffix_refl _, fun x hx => ?_, fun x hx => .inl hx⟩
    rw [List.mem_singleton] at hx; subst hx
    rcases (hw.entered _).1 hc with ⟨y, hy, hid⟩ | h
    · exact hS.unique y (hw.mem y hy) x he hid ▸ hy
    · exact absurd h (hwait x (.refl x))
  | false =>
    have hnew : ∀ x ∈ w.left, x.id ≠ e.id := fun x hx hid => by
      rw [(hw.entered _).2 (.inl ⟨x, hx, hid⟩)] at hc; cases hc
    obtain ⟨h2, v2⟩ := visited_foldl e.operands (fun x hx => ih x.weight (Expr.weight_operand hx)
      rfl (hS.closed e he x hx) fun y hy => by
        rintro (h | h)
        · exact hwait y (.operand hx hy) h
        · exact hS.id_ne_of_below_operand he hx hy h) (w.enter e) (hw.enter e)
    rw [visit_of_not_contains hc]
    -- without cycles the node is not among those below its operands
    have hne : ∀ x ∈ (e.operands.foldl visit (w.enter e)).left, x.id ≠ e.id := fun x hx => by
      rcases v2.only x hx with hx | ⟨r, hr, hb⟩
      · exact hnew x hx
      · exact hS.id_ne_of_below_operand he hr hb
    refine ⟨h2.leave he v2.all hne, v2.suffix.trans (List.suffix_cons _ _), ?_, fun x hx => ?_⟩
    · simp [leave]
    · rcases List.mem_cons.1 hx with rfl | hx
      · exact .inr (.root (List.mem_singleton_self x))
      · refine (v2.only x hx).imp_right ?_
        rintro ⟨r, hr, hb⟩
        exact ⟨e, List.mem_singleton_self e, .operand hr hb⟩

end Walk

/-! ## The topological order -/

/-- On a graph, the reversed topological order holds the reachable nodes and no others, each once
and before its operands. -/
theorem Expr.topologicalOrder_spec {roots : List (Expr α)} (h : IsDag roots) :
    ∃ l, Expr.topologicalOrder roots = l.reverse ∧ Ordered l ∧
      ∀ x, x ∈ l ↔ Expr.Reachable roots x := by
  obtain ⟨h1, v1⟩ := Walk.visited_foldl roots
    (fun r hr => Walk.sound_visit h (.root hr) fun _ _ h => h) Walk.start (Walk.sound_start _)
  refine ⟨_, Expr.topologicalOrder_eq roots, h1.ordered, fun x => ⟨h1.mem x, ?_⟩⟩
  rintro ⟨r, hr, hb⟩
  exact h1.ordered.mem_of_below (v1.all r hr) hb

/-- In a list with operands after each node, what stands after a node holds its operands. -/
theorem Ordered.operands_mem {before after : List (Expr α)} {e : Expr α} (h : Ordered (before ++ e :: after)) :
    ∀ x ∈ e.operands, x ∈ after := by
  cases h.of_append with
  | cons hops _ _ => exact hops

theorem Expr.mem_topologicalOrder {roots : List (Expr α)} (h : IsDag roots) {x : Expr α} :
    x ∈ Expr.topologicalOrder roots ↔ Expr.Reachable roots x := by
  obtain ⟨l, hl, -, hmem⟩ := Expr.topologicalOrder_spec h
  rw [hl, List.mem_reverse, hmem]

/-- The search with an explicit stack lists nodes in the post-order of the recursive search, and further
roots only add to the list. On a graph it lists the reachable nodes and no others, each of them once and
after all its operands. -/
theorem Expr.topologicalOrder_postorder (roots : List (Expr α)) :
    Expr.topologicalOrder roots = Expr.postorder roots ∧
    (∀ more, Expr.topologicalOrder roots <+: Expr.topologicalOrder (roots ++ more)) ∧
    (IsDag roots →
      (∀ x, x ∈ Expr.topologicalOrder roots ↔ Expr.Reachable roots x) ∧
      ((Expr.topologicalOrder roots).map Expr.id).Nodup ∧
      ∀ before e after, Expr.topologicalOrder roots = before ++ e :: after →
        ∀ x ∈ e.operands, x ∈ before) := by
  refine ⟨topologicalOrder_eq roots, topologicalOrder_append roots, fun h => ?_⟩
  obtain ⟨l, hl, hordered, -⟩ := topologicalOrder_spec h
  refine ⟨fun x => mem_topologicalOrder h, ?_, fun before e after hsplit x hx => ?_⟩
  · rw [hl, List.map_reverse, List.nodup_reverse]
    exact hordered.nodup
  · have hreverse : l = after.reverse ++ e :: before.reverse := by
      rw [← List.reverse_reverse l, ← hl, hsplit]
      simp
    rw [hreverse] at hordered
    exact List.mem_reverse.1 (hordered.operands_mem x hx)

/-- The nodes of `c (a + a)`. -/
def shared : List (Expr Nat) :=
  let a := .symbol 0 "a" .scalar
  let c := .symbol 1 "c" .scalar
  let b := .binary 2 .add a a
  [a, c, b, .binary 3 .matmul c b]

/-- A root that is given twice, and two nodes below it. -/
def sharedRoots : List (Expr Nat) := [shared[3], shared[2], shared[3], shared[0]]

theorem topologicalOrder_sharedRoots : IsDag sharedRoots ∧
    Expr.topologicalOrder sharedRoots = [shared[1], shared[0], shared[2], shared[3]] ∧
    (∀ x, x ∈ Expr.topologicalOrder sharedRoots ↔ Expr.Reachable sharedRoots x) ∧
    ((Expr.topologicalOrder sharedRoots).map Expr.id).Nodup := by
  have hS : IsGraph {x | x ∈ shared} :=
    isGraph_list (by simp [shared, Expr.operands]) (by simp [shared, Expr.id])
  have hdag : IsDag sharedRoots := hS.isDag (by simp [sharedRoots, shared])
  obtain ⟨horder, -, hspec⟩ := Expr.topologicalOrder_postorder sharedRoots
  refine ⟨hdag, horder.trans ?_, (hspec hdag).1, (hspec hdag).2.1⟩
  simp [Expr.postorder, sharedRoots, shared, Walk.visit, Walk.start, Walk.enter, Walk.leave, Expr.id]

end Lyapunov
