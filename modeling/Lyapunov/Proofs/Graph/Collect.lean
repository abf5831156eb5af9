/-
The nodes below an expression. The search with a stack of nodes finds each of them once, in an order of its
own. So an expression has as many nodes as its topological order lists, and its symbols are the symbols of
that order, sorted by their numbers.
-/
import Mathlib.Data.List.Perm.Lattice
import Lyapunov.Proofs.Graph.Order

namespace Lyapunov.Expr

variable {α : Type}

/-! ## The search -/

/-- The state of the search in the graph `S`: the nodes found are different, their numbers are those seen,
and their operands were found as well or are still on the stack. -/
structure Collected (S : Set (Expr α)) (seen : Std.HashSet Nat) (found stack : List (Expr α)) : Prop where
  seen : ∀ i, seen.contains i = true ↔ i ∈ found.map Expr.id
  nodup : (found.map Expr.id).Nodup
  mem : ∀ x ∈ found ++ stack, x ∈ S
  operands : ∀ x ∈ found, ∀ y ∈ x.operands, y ∈ found ∨ y ∈ stack

namespace Collected

variable {S : Set (Expr α)} {seen : Std.HashSet Nat} {found stack : List (Expr α)} {e : Expr α}

theorem start (he : e ∈ S) : Collected S ∅ [] [e] :=
  ⟨by simp, by simp, by simpa, by simp⟩

/-- Below a node that was found there are only nodes that were found and nodes below the stack. -/
theorem of_below (h : Collected S seen found stack) {x y : Expr α} (hy : y ∈ found) (hx : Below x y) :
    x ∈ found ∨ Reachable stack x := by
  induction hx with
  | refl => exact .inl hy
  | operand hz hb ih =>
    rcases h.operands _ hy _ hz with hz | hz
    · exact ih hz
    · exact .inr ⟨_, hz, hb⟩

/-- In a graph a number that was seen is that of a node that was found. -/
theorem mem_found (h : Collected S seen found (e :: stack)) (hS : IsGraph S)
    (hseen : seen.contains e.id = true) : e ∈ found := by
  obtain ⟨x, hx, hid⟩ := List.mem_map.1 ((h.seen _).1 hseen)
  exact hS.unique x (h.mem x (List.mem_append_left _ hx)) e (h.mem e (by simp)) hid ▸ hx

theorem skip (h : Collected S seen found (e :: stack)) (he : e ∈ found) :
    Collected S seen found stack where
  seen := h.seen
  nodup := h.nodup
  mem x hx := h.mem x (by
    rcases List.mem_append.1 hx with hx | hx
    · exact List.mem_append_left _ hx
    · exact List.mem_append_right _ (List.mem_cons_of_mem _ hx))
  operands x hx y hy := by
    rcases h.operands x hx y hy with hy | hy
    · exact .inl hy
    rcases List.mem_cons.1 hy with rfl | hy
    · exact .inl he
    · exact .inr hy

/-- A node that is found puts its operands on the stack. -/
theorem find (h : Collected S seen found (e :: stack)) (hS : IsGraph S)
    (hseen : ¬ seen.contains e.id = true) :
    Collected S (seen.insert e.id) (e :: found) (e.operands ++ stack) where
  seen i := by
    rw [Std.HashSet.contains_insert, Bool.or_eq_true, beq_iff_eq, h.seen, List.map_cons, List.mem_cons,
      eq_comm]
  nodup := by
    rw [List.map_cons, List.nodup_cons]
    exact ⟨fun hmem => hseen ((h.seen _).2 hmem), h.nodup⟩
  mem x hx := by
    have he : e ∈ S := h.mem e (by simp)
    simp only [List.cons_append, List.mem_cons, List.mem_append] at hx
    rcases hx with rfl | hx | hx | hx
    · exact he
    · exact h.mem x (List.mem_append_left _ hx)
    · exact hS.closed e he x hx
    · exact h.mem x (List.mem_append_right _ (List.mem_cons_of_mem _ hx))
  operands x hx y hy := by
    rcases List.mem_cons.1 hx with rfl | hx
    · exact .inr (List.mem_append_left _ hy)
    rcases h.operands x hx y hy with hy | hy
    · exact .inl (List.mem_cons_of_mem _ hy)
    rcases List.mem_cons.1 hy with rfl | hy
    · exact .inl List.mem_cons_self
    · exact .inr (List.mem_append_right _ hy)

end Collected

theorem reachable_cons {e x : Expr α} {stack : List (Expr α)} :
    Reachable (e :: stack) x ↔ Below x e ∨ Reachable stack x := by
  simp only [Reachable, List.mem_cons, exists_eq_or_imp]

theorem reachable_append {roots roots' : List (Expr α)} {x : Expr α} :
    Reachable (roots ++ roots') x ↔ Reachable roots x ∨ Reachable roots' x := by
  simp only [Reachable, List.mem_append, or_and_right, exists_or]

/-- The search finds what is below the stack, and each node once. -/
theorem collect_spec {S : Set (Expr α)} (hS : IsGraph S) {seen : Std.HashSet Nat}
    {found stack : List (Expr α)} (h : Collected S seen found stack) :
    ((collect seen found stack).map Expr.id).Nodup ∧
      ∀ x, x ∈ collect seen found stack ↔ x ∈ found ∨ Reachable stack x := by
  fun_induction collect seen found stack with
  | case1 => exact ⟨h.nodup, fun x => by simp [Reachable]⟩
  | case2 seen found e stack hseen ih =>
    have he := h.mem_found hS hseen
    have hskip := h.skip he
    obtain ⟨hnodup, hmem⟩ := ih hskip
    refine ⟨hnodup, fun x => ?_⟩
    rw [hmem, reachable_cons]
    constructor
    · exact Or.imp_right .inr
    · rintro (hx | hx | hx)
      exacts [.inl hx, hskip.of_below he hx, .inr hx]
  | case3 seen found e stack hseen ih =>
    obtain ⟨hnodup, hmem⟩ := ih (h.find hS hseen)
    refine ⟨hnodup, fun x => ?_⟩
    have hbelow : Below x e ↔ x = e ∨ Reachable e.operands x := below_iff
    rw [hmem, reachable_append, reachable_cons, hbelow, List.mem_cons]
    simp only [or_assoc, or_left_comm]

/-! ## The nodes below an expression -/

section

variable {e : Expr α} (h : IsDag [e])

include h

theorem mem_reachable_iff {x : Expr α} : x ∈ e.reachable ↔ Below x e := by
  rw [reachable, (collect_spec h (.start (.root (List.mem_singleton_self e)))).2]
  simp [Reachable]

theorem nodup_reachable : (e.reachable.map Expr.id).Nodup :=
  (collect_spec h (.start (.root (List.mem_singleton_self e)))).1

/-- Both searches find the same nodes. -/
theorem reachable_perm : e.reachable.Perm (topologicalOrder [e]) := by
  have horder := ((topologicalOrder_postorder [e]).2.2 h).2.1
  refine (List.perm_ext_iff_of_nodup (nodup_reachable h).of_map horder.of_map).2 fun x => ?_
  rw [mem_reachable_iff h, mem_topologicalOrder h]
  simp [Reachable]

theorem nodeCount_eq_length : e.nodeCount = (topologicalOrder [e]).length :=
  (reachable_perm h).length_eq

omit h in
theorem symbols_perm_filter : e.symbols.Perm (e.reachable.filter isSymbol) := List.mergeSort_perm _ _

theorem mem_symbols_iff {x : Expr α} : x ∈ e.symbols ↔ Below x e ∧ x.isSymbol = true := by
  rw [symbols_perm_filter.mem_iff, List.mem_filter, mem_reachable_iff h]

/-- Symbols come in the order of their creation. -/
theorem pairwise_symbols : e.symbols.Pairwise fun x y => x.id < y.id := by
  have hle : e.symbols.Pairwise fun x y => x.id ≤ y.id := by
    refine (List.pairwise_mergeSort (fun a b c hab hbc => ?_) (fun a b => ?_) _).imp fun hab => ?_
    · simp only [decide_eq_true_eq] at hab hbc ⊢
      omega
    · simp only [Bool.or_eq_true, decide_eq_true_eq]
      omega
    · exact of_decide_eq_true hab
  have hne : e.symbols.Pairwise fun x y => x.id ≠ y.id := by
    rw [← List.pairwise_map]
    refine (symbols_perm_filter.map Expr.id).nodup_iff.2 ?_
    exact (nodup_reachable h).sublist (List.filter_sublist.map _)
  exact hle.imp₂ (fun _ _ hle hne => lt_of_le_of_ne hle hne) hne

end

end Lyapunov.Expr
