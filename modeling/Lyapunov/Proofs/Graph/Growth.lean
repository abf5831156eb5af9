/-
What creating nodes does. `Build.Returns` speaks of the result of a computation whatever the number of
the next node is. `Build.Grows` speaks of the graph as well: as new nodes have operands that exist and
numbers that were not used, a graph grows into a larger graph.
-/
import Mathlib.Data.List.Forall2
import Mathlib.Data.Set.Insert
import Lyapunov.Expr.Operators
import Lyapunov.Proofs.Graph.Reach

namespace Lyapunov

variable {α β γ : Type}

theorem IsGraph.insert {S : Set (Expr α)} (hS : IsGraph S) {e : Expr α}
    (hops : ∀ x ∈ e.operands, x ∈ S) (hid : ∀ x ∈ S, x.id ≠ e.id) : IsGraph (insert e S) where
  closed := by
    rintro x (rfl | hx) y hy
    · exact .inr (hops y hy)
    · exact .inr (hS.closed x hx y hy)
  unique := by
    rintro x (rfl | hx) y (rfl | hy) h
    · rfl
    · exact absurd h.symm (hid y hy)
    · exact absurd h (hid x hx)
    · exact hS.unique x hx y hy h

/-- A graph of nodes with the property `P`, and with numbers below that of the next node. -/
structure Store (P : Expr α → Prop) (n : Nat) (S : Set (Expr α)) : Prop where
  graph : IsGraph S
  below : ∀ e ∈ S, e.id < n
  holds : ∀ e ∈ S, P e

theorem Store.insert {P : Expr α → Prop} {n : Nat} {S : Set (Expr α)} (h : Store P n S) {e : Expr α}
    (hid : e.id = n) (hops : ∀ x ∈ e.operands, x ∈ S) (hP : P e) : Store P (n + 1) (insert e S) where
  graph := h.graph.insert hops fun x hx hxe => by
    have := h.below x hx
    omega
  below := by
    rintro x (rfl | hx)
    · omega
    · have := h.below x hx
      omega
  holds := by
    rintro x (rfl | hx)
    exacts [hP, h.holds x hx]

theorem Store.imp {P Q : Expr α → Prop} {n : Nat} {S : Set (Expr α)} (h : Store P n S)
    (k : ∀ e ∈ S, P e → Q e) : Store Q n S :=
  ⟨h.graph, h.below, fun e he => k e he (h.holds e he)⟩

namespace Build

/-! ## Results -/

/-- The result satisfies `Q`. -/
def Returns (m : Build β) (Q : β → Prop) : Prop := ∀ n, Q (m.run n).1

theorem Returns.imp {m : Build β} {Q R : β → Prop} (h : m.Returns Q) (k : ∀ b, Q b → R b) :
    m.Returns R := fun n => k _ (h n)

theorem returns_true (m : Build β) : m.Returns fun _ => True := fun _ => trivial

theorem returns_pure {b : β} {Q : β → Prop} (h : Q b) : Returns (pure b : Build β) Q := fun _ => h

theorem returns_bind {m : Build β} {f : β → Build γ} {Q : β → Prop} {R : γ → Prop}
    (hm : m.Returns Q) (hf : ∀ b, Q b → (f b).Returns R) : (m >>= f).Returns R :=
  fun n => hf _ (hm n) _

theorem returns_newConstant {m : Dense α} {Q : Expr α → Prop} (h : ∀ i, Q (.constant i m)) :
    (Expr.newConstant m).Returns Q := fun n => h n

theorem returns_newUnary {op : UnaryOp α} {x : Expr α} {Q : Expr α → Prop}
    (h : ∀ i, Q (.unary i op x)) : (Expr.newUnary op x).Returns Q := fun n => h n

theorem returns_newBinary {op : BinaryOp} {x y : Expr α} {Q : Expr α → Prop}
    (h : ∀ i, Q (.binary i op x y)) : (Expr.newBinary op x y).Returns Q := fun n => h n

theorem returns_mapM {f : β → Build γ} {Q : β → γ → Prop} {l : List β}
    (h : ∀ x ∈ l, (f x).Returns (Q x)) : (l.mapM f).Returns (List.Forall₂ Q l) := by
  induction l with
  | nil => exact returns_pure .nil
  | cons x l ih =>
    rw [List.mapM_cons]
    refine returns_bind (h x List.mem_cons_self) fun y hy => ?_
    refine returns_bind (ih fun z hz => h z (List.mem_cons_of_mem _ hz)) fun ys hys => ?_
    exact returns_pure (.cons hy hys)

/-- A loop with an invariant of its state. -/
theorem returns_foldlM {f : β → γ → Build β} {Q : β → Prop} {l : List γ}
    (h : ∀ x ∈ l, ∀ b, Q b → (f b x).Returns Q) {b : β} (hb : Q b) : (l.foldlM f b).Returns Q := by
  induction l generalizing b with
  | nil => exact returns_pure hb
  | cons x l ih =>
    rw [List.foldlM_cons]
    refine returns_bind (h x List.mem_cons_self b hb) fun b' hb' => ?_
    exact ih (fun z hz => h z (List.mem_cons_of_mem _ hz)) hb'

/-! ## The graph -/

/-- From the graph `S` the computation grows a graph that satisfies `Q` with its result. -/
def Grows (P : Expr α → Prop) (S : Set (Expr α)) (m : Build β) (Q : Set (Expr α) → β → Prop) : Prop :=
  ∀ n, Store P n S → ∃ S', S ⊆ S' ∧ Store P (m.run n).2 S' ∧ Q S' (m.run n).1

variable {P : Expr α → Prop} {S : Set (Expr α)}

theorem Grows.imp {m : Build β} {Q R : Set (Expr α) → β → Prop} (h : Grows P S m Q)
    (k : ∀ S' b, S ⊆ S' → Q S' b → R S' b) : Grows P S m R := fun n hn => by
  obtain ⟨S', hS, hs, hq⟩ := h n hn
  exact ⟨S', hS, hs, k S' _ hS hq⟩

/-- A graph grows, and the result has a property that it has from any number on. -/
theorem Grows.and {m : Build β} {Q : Set (Expr α) → β → Prop} {R : β → Prop} (h : Grows P S m Q)
    (k : m.Returns R) : Grows P S m fun S' b => Q S' b ∧ R b := fun n hn => by
  obtain ⟨S', hS, hs, hq⟩ := h n hn
  exact ⟨S', hS, hs, hq, k n⟩

theorem grows_pure {b : β} {Q : Set (Expr α) → β → Prop} (h : Q S b) :
    Grows P S (pure b) Q := fun _ hn => ⟨S, subset_rfl, hn, h⟩

theorem grows_bind {m : Build β} {f : β → Build γ} {Q : Set (Expr α) → β → Prop}
    {R : Set (Expr α) → γ → Prop} (hm : Grows P S m Q)
    (hf : ∀ S' b, S ⊆ S' → Q S' b → Grows P S' (f b) R) : Grows P S (m >>= f) R := fun n hn => by
  obtain ⟨S', hS, hs, hq⟩ := hm n hn
  obtain ⟨S'', hS', hs', hr⟩ := hf S' _ hS hq _ hs
  exact ⟨S'', hS.trans hS', hs', hr⟩

/-- What is known of the graph at the start may be used. -/
theorem grows_of_holds {m : Build β} {Q : Set (Expr α) → β → Prop}
    (h : (∀ e ∈ S, P e) → Grows P S m Q) : Grows P S m Q := fun n hn => h hn.holds n hn

theorem grows_newSymbol {name : String} {s : Shape} {Q : Set (Expr α) → Expr α → Prop}
    (hP : ∀ i, P (.symbol i name s))
    (hQ : ∀ i, (∀ x ∈ S, x.id < i) → Q (insert (.symbol i name s) S) (.symbol i name s)) :
    Grows P S (Expr.newSymbol name s) Q := fun n hn =>
  ⟨insert (.symbol n name s) S, Set.subset_insert _ _, hn.insert rfl (fun x hx => by cases hx) (hP n),
    hQ n hn.below⟩

theorem grows_newConstant {m : Dense α} (hP : ∀ i, P (.constant i m)) :
    Grows P S (Expr.newConstant m) fun S' e => e ∈ S' ∧ e.shape = m.shape := fun n hn =>
  ⟨insert (.constant n m) S, Set.subset_insert _ _, hn.insert rfl (fun x hx => by cases hx) (hP n),
    .inl rfl, rfl⟩

theorem grows_newUnary {op : UnaryOp α} {x : Expr α} (hx : x ∈ S) (hP : ∀ i, P (.unary i op x)) :
    Grows P S (Expr.newUnary op x) fun S' e => e ∈ S' ∧ e.shape = op.shape x.shape := fun n hn =>
  ⟨insert (.unary n op x) S, Set.subset_insert _ _, hn.insert rfl (by simpa [Expr.operands]) (hP n),
    .inl rfl, rfl⟩

theorem grows_newBinary {op : BinaryOp} {x y : Expr α} (hx : x ∈ S) (hy : y ∈ S)
    (hP : ∀ i, P (.binary i op x y)) :
    Grows P S (Expr.newBinary op x y) fun S' e => e ∈ S' ∧ e.shape = op.shape x.shape y.shape :=
  fun n hn =>
    ⟨insert (.binary n op x y) S, Set.subset_insert _ _,
      hn.insert rfl (by simp [Expr.operands, hx, hy]) (hP n), .inl rfl, rfl⟩

/-- A list of computations, each of which starts from the graph that the one before it has grown. -/
theorem grows_mapM {f : β → Build γ} {Q : Set (Expr α) → β → γ → Prop} {l : List β}
    (hmono : ∀ S' S'' x y, S' ⊆ S'' → Q S' x y → Q S'' x y)
    (h : ∀ x ∈ l, ∀ S', S ⊆ S' → Grows P S' (f x) (Q · x)) :
    Grows P S (l.mapM f) fun S' => List.Forall₂ (Q S') l := by
  induction l generalizing S with
  | nil => exact grows_pure .nil
  | cons x l ih =>
    rw [List.mapM_cons]
    refine grows_bind (h x List.mem_cons_self S subset_rfl) fun S' y hS hy => ?_
    refine grows_bind (ih fun z hz S'' hS' => h z (List.mem_cons_of_mem _ hz) S'' (hS.trans hS'))
      fun S'' ys hS' hys => ?_
    exact grows_pure (.cons (hmono S' S'' x y hS' hy) hys)

/-- A list of computations on nodes that stand for the elements of another list. -/
theorem grows_mapM_forall₂ {δ : Type} {f : β → Build γ} {I : Set (Expr α) → δ → β → Prop}
    {Q : Set (Expr α) → δ → γ → Prop} {ds : List δ} {bs : List β} (hbs : List.Forall₂ (I S) ds bs)
    (hI : ∀ S' S'' d b, S' ⊆ S'' → I S' d b → I S'' d b)
    (hQ : ∀ S' S'' d c, S' ⊆ S'' → Q S' d c → Q S'' d c)
    (h : ∀ S' d b, S ⊆ S' → I S' d b → Grows P S' (f b) (Q · d)) :
    Grows P S (bs.mapM f) fun S' => List.Forall₂ (Q S') ds := by
  induction ds generalizing S bs with
  | nil =>
    cases hbs
    exact grows_pure .nil
  | cons d ds ih =>
    cases hbs with
    | cons hb hbs =>
      rw [List.mapM_cons]
      refine grows_bind (h S d _ subset_rfl hb) fun S' c hS hc => ?_
      refine grows_bind (ih (hbs.imp fun d b => hI S S' d b hS)
        fun S'' d b hS' => h S'' d b (hS.trans hS')) fun S'' cs hS' hcs => ?_
      exact grows_pure (.cons (hQ S' S'' d c hS' hc) hcs)

/-- A loop with an invariant. -/
theorem grows_foldlM {f : β → γ → Build β} {I : Set (Expr α) → β → Prop} {l : List γ}
    (h : ∀ x ∈ l, ∀ S' b, S ⊆ S' → I S' b → Grows P S' (f b x) I) {b : β} (hb : I S b) :
    Grows P S (l.foldlM f b) I := by
  induction l generalizing S b with
  | nil => exact grows_pure hb
  | cons x l ih =>
    rw [List.foldlM_cons]
    refine grows_bind (h x List.mem_cons_self S b subset_rfl hb) fun S' b' hS hb' => ?_
    exact ih (fun z hz S'' c hS' => h z (List.mem_cons_of_mem _ hz) S'' c (hS.trans hS')) hb'

end Build

end Lyapunov
