/-
How many nodes a computation creates, and what its result is made of. Costs add up along a computation, and a
node that is created has only operands that were there before; so a graph grows by no more than was spent.
-/
import Mathlib.Order.Interval.Finset.Nat
import Lyapunov.Expr.Operators
import Lyapunov.Proofs.Graph.Order

namespace Lyapunov

variable {α β γ : Type}

/-- The node and the nodes below it have numbers in `T` or numbers from `n` on. -/
def Expr.Within (T : Finset Nat) (n : Nat) (e : Expr α) : Prop := e.All fun x => x.id ∈ T ∨ n ≤ x.id

namespace Build

/-- When numbers from `n` on are free, the computation takes at most `k` of them, and the result satisfies `Q`. -/
def Spends (n k : Nat) (m : Build β) (Q : β → Prop) : Prop :=
  ∀ s, n ≤ s → s ≤ (m.run s).2 ∧ (m.run s).2 ≤ s + k ∧ Q (m.run s).1

variable {n k l : Nat} {Q : β → Prop} {R : γ → Prop}

/-! ## Computations -/

theorem Spends.mono {m : Build β} (h : Spends n k m Q) (hk : k ≤ l) : Spends n l m Q := fun s hs => by
  obtain ⟨hle, hk', hq⟩ := h s hs
  exact ⟨hle, by omega, hq⟩

theorem spends_pure {b : β} (h : Q b) : Spends n k (pure b) Q := fun s _ => ⟨le_rfl, Nat.le_add_right s k, h⟩

theorem spends_bind {m : Build β} {f : β → Build γ} (hm : Spends n k m Q)
    (hf : ∀ b, Q b → Spends n l (f b) R) : Spends n (k + l) (m >>= f) R := fun s hs => by
  obtain ⟨hle, hk, hq⟩ := hm s hs
  obtain ⟨hle', hl, hr⟩ := hf _ hq _ (hs.trans hle)
  refine ⟨hle.trans hle', ?_, hr⟩
  show ((f (m.run s).1).run (m.run s).2).2 ≤ s + (k + l)
  omega

theorem Spends.map {m : Build β} {f : β → γ} (hm : Spends n k m Q) (hf : ∀ b, Q b → R (f b)) :
    Spends n k (do return f (← m)) R := fun s hs => by
  obtain ⟨hle, hk, hq⟩ := hm s hs
  exact ⟨hle, hk, hf _ hq⟩

theorem spends_mapM {f : β → Build γ} {bs : List β} (h : ∀ b ∈ bs, Spends n k (f b) R) :
    Spends n (bs.length * k) (bs.mapM f) fun cs => ∀ c ∈ cs, R c := by
  induction bs with
  | nil => exact spends_pure (by simp)
  | cons b bs ih =>
    rw [List.mapM_cons, List.length_cons, Nat.succ_mul, Nat.add_comm]
    refine spends_bind (h b List.mem_cons_self) fun c hc => ?_
    have hrest := ih fun b' hb' => h b' (List.mem_cons_of_mem _ hb')
    exact hrest.map fun cs hcs => List.forall_mem_cons.2 ⟨hc, hcs⟩

/-- A loop with an invariant. -/
theorem spends_foldlM {f : β → γ → Build β} {cs : List γ} (h : ∀ c ∈ cs, ∀ b, Q b → Spends n k (f b c) Q)
    {b : β} (hb : Q b) : Spends n (cs.length * k) (cs.foldlM f b) Q := by
  induction cs generalizing b with
  | nil => exact spends_pure hb
  | cons c cs ih =>
    rw [List.foldlM_cons, List.length_cons, Nat.succ_mul, Nat.add_comm]
    refine spends_bind (h c List.mem_cons_self b hb) fun b' hb' => ?_
    exact ih (fun c' hc' => h c' (List.mem_cons_of_mem _ hc')) hb'

/-! ## Nodes -/

section Nodes

variable {T : Finset Nat} {x y : Expr α}

/-- A node has one number. -/
theorem spends_fresh {f : Nat → Expr α} (h : ∀ i, n ≤ i → (f i).Within T n) :
    Spends n 1 (do return f (← Build.fresh)) (Expr.Within T n) :=
  fun s hs => ⟨Nat.le_succ s, le_rfl, h s hs⟩

theorem spends_newSymbol (name : String) (s : Shape) :
    Spends n 1 (Expr.newSymbol name s : Build (Expr α)) (Expr.Within T n) :=
  spends_fresh fun _ hi => Expr.all_iff.2 ⟨.inr hi, by simp [Expr.operands]⟩

theorem spends_zeros [Zero α] (s : Shape) : Spends n 1 (Expr.zeros s : Build (Expr α)) (Expr.Within T n) :=
  spends_fresh fun _ hi => Expr.all_iff.2 ⟨.inr hi, by simp [Expr.operands]⟩

theorem spends_newUnary (hx : x.Within T n) (op : UnaryOp α) :
    Spends n 1 (Expr.newUnary op x) (Expr.Within T n) :=
  spends_fresh fun _ hi => Expr.all_unary.2 ⟨.inr hi, hx⟩

theorem spends_newBinary (hx : x.Within T n) (hy : y.Within T n) (op : BinaryOp) :
    Spends n 1 (Expr.newBinary op x y) (Expr.Within T n) :=
  spends_fresh fun _ hi => Expr.all_binary.2 ⟨.inr hi, hx, hy⟩

theorem spends_reshape (hx : x.Within T n) (s : Shape) : Spends n 1 (x.reshape s) (Expr.Within T n) := by
  unfold Expr.reshape
  split
  · exact spends_pure hx
  · exact spends_newUnary hx _

end Nodes

end Build

/-! ## The size of a graph -/

namespace Expr

variable {roots : List (Expr α)} {T : Finset Nat} {n n' : Nat}

/-- The numbers of a graph. -/
def orderNumbers (roots : List (Expr α)) : Finset Nat := ((topologicalOrder roots).map id).toFinset

theorem card_orderNumbers_le (roots : List (Expr α)) :
    (orderNumbers roots).card ≤ (topologicalOrder roots).length := by
  rw [← List.length_map id]
  exact List.toFinset_card_le _

/-- The nodes of a graph are within its numbers. -/
theorem within_of_reachable (h : IsDag roots) {e : Expr α} (he : Reachable roots e) (n : Nat) :
    e.Within (orderNumbers roots) n := fun _ hx =>
  .inl (List.mem_toFinset.2 (List.mem_map_of_mem ((mem_topologicalOrder h).2 (he.below hx))))

/-- A graph that grew has at most as many nodes as before and as numbers were spent. -/
theorem length_topologicalOrder_le (h : IsDag roots) (hwithin : ∀ e ∈ roots, e.Within T n)
    (hbelow : ∀ e, Reachable roots e → e.id < n') :
    (topologicalOrder roots).length ≤ T.card + (n' - n) := by
  have hnodup := ((topologicalOrder_postorder roots).2.2 h).2.1
  have hsubset : orderNumbers roots ⊆ T ∪ Finset.Ico n n' := by
    intro i hi
    obtain ⟨x, hx, rfl⟩ := List.mem_map.1 (List.mem_toFinset.1 hi)
    have hreach := (mem_topologicalOrder h).1 hx
    obtain ⟨r, hr, hxr⟩ := hreach
    rw [Finset.mem_union, Finset.mem_Ico]
    exact (hwithin r hr x hxr).imp_right fun hn => ⟨hn, hbelow x ⟨r, hr, hxr⟩⟩
  calc (topologicalOrder roots).length
      = (orderNumbers roots).card := by rw [orderNumbers, List.toFinset_card_of_nodup hnodup, List.length_map]
    _ ≤ (T ∪ Finset.Ico n n').card := Finset.card_le_card hsubset
    _ ≤ T.card + (Finset.Ico n n').card := Finset.card_union_le _ _
    _ = T.card + (n' - n) := by rw [Nat.card_Ico]

end Expr

end Lyapunov
