/-
Which nodes a computation creates. It keeps the nodes that exist and takes the numbers of new ones from
a counter, so that a new node has a number of its own, larger than all numbers before it, and operands
with smaller numbers. `Creation` says so of the nodes before and after, whatever was created between;
`Build.Creates` says it of a computation, together with what is known of the result.
-/
import Mathlib.Order.BooleanAlgebra.Set
import Lyapunov.Proofs.Graph.Growth

namespace Lyapunov

variable {α β γ : Type}

/-- The nodes `S` have become the nodes `S'` while the numbers from `n` up to `n'` were taken. -/
structure Creation (n : Nat) (S : Set (Expr α)) (n' : Nat) (S' : Set (Expr α)) : Prop where
  le : n ≤ n'
  kept : S ⊆ S'
  number : ∀ e ∈ S' \ S, n ≤ e.id ∧ e.id < n'
  unique : ∀ x ∈ S' \ S, ∀ y ∈ S' \ S, x.id = y.id → x = y
  operand : ∀ e ∈ S' \ S, ∀ x ∈ e.operands, x ∈ S' ∧ x.id < e.id

namespace Creation

variable {n n' n'' : Nat} {S S' S'' : Set (Expr α)}

/-- Numbers may be taken for no node. -/
theorem of_le (h : n ≤ n') (S : Set (Expr α)) : Creation n S n' S where
  le := h
  kept := subset_rfl
  number _ he := absurd he.1 he.2
  unique _ hx := absurd hx.1 hx.2
  operand _ he := absurd he.1 he.2

theorem insert {e : Expr α} (hid : e.id = n) (hS : ∀ x ∈ S, x.id < n) (hops : ∀ x ∈ e.operands, x ∈ S) :
    Creation n S (n + 1) (insert e S) where
  le := Nat.le_succ n
  kept := Set.subset_insert e S
  number := by
    rintro x ⟨rfl | hx, hxS⟩
    · omega
    · exact absurd hx hxS
  unique := by
    rintro x ⟨rfl | hx, hxS⟩ y ⟨rfl | hy, hyS⟩ -
    exacts [rfl, absurd hy hyS, absurd hx hxS, absurd hx hxS]
  operand := by
    rintro x ⟨rfl | hx, hxS⟩ y hy
    · exact ⟨.inr (hops y hy), hid ▸ hS y (hops y hy)⟩
    · exact absurd hx hxS

theorem trans (h : Creation n S n' S') (h' : Creation n' S' n'' S'') : Creation n S n'' S'' where
  le := h.le.trans h'.le
  kept := h.kept.trans h'.kept
  number e he := by
    have := h.le
    have := h'.le
    rcases sdiff_triangle S'' S' S he with he | he
    · have := h'.number e he
      omega
    · have := h.number e he
      omega
  unique x hx y hy hid := by
    rcases sdiff_triangle S'' S' S hx with hx | hx <;> rcases sdiff_triangle S'' S' S hy with hy | hy
    · exact h'.unique x hx y hy hid
    · have := h'.number x hx
      have := h.number y hy
      omega
    · have := h.number x hx
      have := h'.number y hy
      omega
    · exact h.unique x hx y hy hid
  operand e he x hx := by
    rcases sdiff_triangle S'' S' S he with he | he
    · exact h'.operand e he x hx
    · exact (h.operand e he x hx).imp_left fun hx => h'.kept hx

/-- Nodes that are not used any more may be left out. -/
theorem restrict (h : Creation n S n' S'') (hS : S ⊆ S') (hS' : S' ⊆ S'')
    (hclosed : ∀ e ∈ S', ∀ x ∈ e.operands, x ∈ S') : Creation n S n' S' where
  le := h.le
  kept := hS
  number e he := h.number e ⟨hS' he.1, he.2⟩
  unique x hx y hy := h.unique x ⟨hS' hx.1, hx.2⟩ y ⟨hS' hy.1, hy.2⟩
  operand e he x hx := ⟨hclosed e he.1 x hx, (h.operand e ⟨hS' he.1, he.2⟩ x hx).2⟩

/-- Numbers stay below that of the next node. -/
theorem below (h : Creation n S n' S') (hS : ∀ e ∈ S, e.id < n) {e : Expr α} (he : e ∈ S') : e.id < n' := by
  by_cases heS : e ∈ S
  · exact (hS e heS).trans_le h.le
  · exact (h.number e ⟨he, heS⟩).2

/-- The nodes at the end hold their operands if those at the start do. -/
theorem closed (h : Creation n S n' S') (hS : ∀ e ∈ S, ∀ x ∈ e.operands, x ∈ S) :
    ∀ e ∈ S', ∀ x ∈ e.operands, x ∈ S' := fun e he x hx => by
  by_cases heS : e ∈ S
  · exact h.kept (hS e heS x hx)
  · exact (h.operand e ⟨he, heS⟩ x hx).1

/-- A node at the end with the number of a node at the start is that node. -/
theorem eq_of_id_eq (h : Creation n S n' S') (hS : IsGraph S) (hbelow : ∀ e ∈ S, e.id < n) {x y : Expr α}
    (hx : x ∈ S) (hy : y ∈ S') (hid : y.id = x.id) : y = x := by
  by_cases hyS : y ∈ S
  · exact hS.unique y hyS x hx hid
  · have := (h.number y ⟨hy, hyS⟩).1
    have := hbelow x hx
    omega

theorem isGraph (h : Creation n S n' S') (hS : IsGraph S) (hbelow : ∀ e ∈ S, e.id < n) : IsGraph S' where
  closed := h.closed hS.closed
  unique x hx y hy hid := by
    by_cases hxS : x ∈ S
    · exact (h.eq_of_id_eq hS hbelow hxS hy hid.symm).symm
    · by_cases hyS : y ∈ S
      · exact h.eq_of_id_eq hS hbelow hyS hx hid
      · exact h.unique x ⟨hx, hxS⟩ y ⟨hy, hyS⟩ hid

end Creation

namespace Build

/-- When the nodes `S` have numbers below the next one, the computation creates nodes, and among all
nodes that exist then its result satisfies `Q`. -/
def Creates (S : Set (Expr α)) (m : Build β) (Q : Set (Expr α) → β → Prop) : Prop :=
  ∀ n, (∀ e ∈ S, e.id < n) → ∃ S', Creation n S (m.run n).2 S' ∧ Q S' (m.run n).1

variable {S : Set (Expr α)} {Q : Set (Expr α) → β → Prop} {R : Set (Expr α) → γ → Prop}

theorem Creates.imp {Q' : Set (Expr α) → β → Prop} {m : Build β} (h : Creates S m Q)
    (k : ∀ S' b, S ⊆ S' → Q S' b → Q' S' b) : Creates S m Q' := fun n hn => by
  obtain ⟨S', hS', hq⟩ := h n hn
  exact ⟨S', hS', k S' _ hS'.kept hq⟩

theorem creates_pure {b : β} (h : Q S b) : Creates S (pure b) Q := fun _ _ =>
  ⟨S, .of_le le_rfl S, h⟩

theorem creates_bind {m : Build β} {f : β → Build γ} (hm : Creates S m Q)
    (hf : ∀ S' b, S ⊆ S' → Q S' b → Creates S' (f b) R) : Creates S (m >>= f) R := fun n hn => by
  obtain ⟨S', hS', hq⟩ := hm n hn
  obtain ⟨S'', hS'', hr⟩ := hf S' _ hS'.kept hq _ fun e he => hS'.below hn he
  exact ⟨S'', hS'.trans hS'', hr⟩

theorem Creates.map {m : Build β} {f : β → γ} (hm : Creates S m Q)
    (hf : ∀ S' b, S ⊆ S' → Q S' b → R S' (f b)) : Creates S (do return f (← m)) R :=
  creates_bind hm fun S' b hS hq => creates_pure (hf S' b hS hq)

theorem creates_mapM {f : β → Build γ} {l : List β} (hmono : ∀ S' S'' c, S' ⊆ S'' → R S' c → R S'' c)
    (h : ∀ b ∈ l, ∀ S', S ⊆ S' → Creates S' (f b) R) :
    Creates S (l.mapM f) fun S' cs => ∀ c ∈ cs, R S' c := by
  induction l generalizing S with
  | nil => exact creates_pure (by simp)
  | cons b l ih =>
    rw [List.mapM_cons]
    refine creates_bind (h b List.mem_cons_self S subset_rfl) fun S' c hS hc => ?_
    refine (ih fun b' hb' S'' hS' => h b' (List.mem_cons_of_mem b hb') S'' (hS.trans hS')).map
      fun S'' cs hS' hcs => ?_
    exact List.forall_mem_cons.2 ⟨hmono S' S'' c hS' hc, hcs⟩

/-- A loop with an invariant. -/
theorem creates_foldlM {f : β → γ → Build β} {l : List γ}
    (h : ∀ c ∈ l, ∀ S' b, S ⊆ S' → Q S' b → Creates S' (f b c) Q) {b : β} (hb : Q S b) :
    Creates S (l.foldlM f b) Q := by
  induction l generalizing S b with
  | nil => exact creates_pure hb
  | cons c l ih =>
    rw [List.foldlM_cons]
    refine creates_bind (h c List.mem_cons_self S b subset_rfl hb) fun S' b' hS hb' => ?_
    exact ih (fun c' hc' S'' b'' hS' => h c' (List.mem_cons_of_mem c hc') S'' b'' (hS.trans hS')) hb'

/-- A number for no node. -/
theorem creates_fresh : Creates S Build.fresh fun _ _ => True := fun n _ =>
  ⟨S, .of_le (Nat.le_succ n) S, trivial⟩

/-! ## New nodes -/

/-- The result is a node that does not belong to `S₀`, the nodes of an earlier time. -/
abbrev CreatesNode (S₀ S : Set (Expr α)) (m : Build (Expr α)) : Prop :=
  Creates S m fun S' e => e ∈ S' \ S₀

/-- The results are nodes that do not belong to `S₀`. -/
abbrev CreatesNodes (S₀ S : Set (Expr α)) (m : Build (List (Expr α))) : Prop :=
  Creates S m fun S' es => ∀ e ∈ es, e ∈ S' \ S₀

variable {S₀ : Set (Expr α)} {x y : Expr α}

theorem createsNode_fresh {f : Nat → Expr α} (h₀ : S₀ ⊆ S) (hid : ∀ i, (f i).id = i)
    (hops : ∀ i, ∀ x ∈ (f i).operands, x ∈ S) : CreatesNode S₀ S (do return f (← Build.fresh)) :=
  fun n hn => ⟨insert (f n) S, .insert (hid n) hn (hops n), .inl rfl, fun he => by
    have hlt : (f n).id < n := hn (f n) (h₀ he)
    exact hlt.ne (hid n)⟩

theorem createsNode_symbol (h₀ : S₀ ⊆ S) (name : String) (s : Shape) :
    CreatesNode S₀ S (Expr.newSymbol name s) :=
  createsNode_fresh h₀ (fun _ => rfl) fun _ _ hx => by cases hx

theorem createsNode_constant (h₀ : S₀ ⊆ S) (m : Dense α) : CreatesNode S₀ S (Expr.newConstant m) :=
  createsNode_fresh h₀ (fun _ => rfl) fun _ _ hx => by cases hx

theorem createsNode_unary (h₀ : S₀ ⊆ S) (hx : x ∈ S) (op : UnaryOp α) :
    CreatesNode S₀ S (Expr.newUnary op x) :=
  createsNode_fresh h₀ (fun _ => rfl) fun _ _ hy => by
    rw [Expr.operands, List.mem_singleton] at hy
    exact hy ▸ hx

theorem createsNode_binary (h₀ : S₀ ⊆ S) (hx : x ∈ S) (hy : y ∈ S) (op : BinaryOp) :
    CreatesNode S₀ S (Expr.newBinary op x y) :=
  createsNode_fresh h₀ (fun _ => rfl) fun _ _ hz => by
    rw [Expr.operands, List.mem_pair] at hz
    exact hz.elim (· ▸ hx) (· ▸ hy)

theorem createsNodes_mapM {f : β → Build (Expr α)} {l : List β}
    (h : ∀ b ∈ l, ∀ S', S ⊆ S' → CreatesNode S₀ S' (f b)) : CreatesNodes S₀ S (l.mapM f) :=
  creates_mapM (fun _ _ _ hS' hc => Set.sdiff_subset_sdiff_left hS' hc) h

end Build

/-! ## Nodes that may be absent -/

namespace Expr

/-- If there is an expression it exists in `S`, and it does not belong to `S₀`. -/
def NewOption (S₀ S : Set (Expr α)) (o : Option (Expr α)) : Prop := ∀ e ∈ o, e ∈ S \ S₀

variable {S₀ S S' : Set (Expr α)} {e : Expr α} {o : Option (Expr α)}

theorem newOption_none : NewOption S₀ S (none : Option (Expr α)) := fun _ h => by cases h

theorem newOption_some (h : e ∈ S \ S₀) : NewOption S₀ S (some e) := fun _ he => by
  cases he
  exact h

theorem NewOption.mono (h : NewOption S₀ S o) (hS : S ⊆ S') : NewOption S₀ S' o :=
  fun e he => Set.sdiff_subset_sdiff_left hS (h e he)

end Expr

/-! ## Computations that may fail -/

namespace TryBuild

/-- The computation creates nodes, also when it fails; when it does not, its result satisfies `Q`. -/
def Creates (S : Set (Expr α)) (m : TryBuild β) (Q : Set (Expr α) → β → Prop) : Prop :=
  Build.Creates S m.run fun S' r => ∀ b, r = .ok b → Q S' b

variable {S : Set (Expr α)} {Q : Set (Expr α) → β → Prop} {R : Set (Expr α) → γ → Prop}

theorem creates_pure {b : β} (h : Q S b) : Creates S (pure b) Q :=
  Build.creates_pure fun b' hb => by
    cases hb
    exact h

theorem creates_throw (e : Error) : Creates S (throw e : TryBuild β) Q :=
  Build.creates_pure fun b hb => by cases hb

theorem creates_bind {m : TryBuild β} {f : β → TryBuild γ} (hm : Creates S m Q)
    (hf : ∀ S' b, S ⊆ S' → Q S' b → Creates S' (f b) R) : Creates S (m >>= f) R := by
  unfold Creates
  rw [ExceptT.run_bind]
  refine Build.creates_bind hm fun S' r hS hr => ?_
  cases r with
  | ok b => exact hf S' b hS (hr b rfl)
  | error e => exact Build.creates_pure fun c hc => by cases hc

theorem Creates.map {m : TryBuild β} {f : β → γ} (hm : Creates S m Q)
    (hf : ∀ S' b, S ⊆ S' → Q S' b → R S' (f b)) : Creates S (do return f (← m)) R :=
  creates_bind hm fun S' b hS hq => creates_pure (hf S' b hS hq)

/-- A check creates no node. -/
theorem creates_check (r : Except Error β) {f : β → TryBuild γ} (hf : ∀ b, r = .ok b → Creates S (f b) R) :
    Creates S (liftM r >>= f) R := by
  cases r with
  | ok b => exact hf b rfl
  | error e => exact creates_throw e

theorem creates_liftBuild {m : Build β} (h : Build.Creates S m Q) : Creates S (liftM m : TryBuild β) Q :=
  h.map fun S' b _ hq c hc => by
    cases hc
    exact hq

end TryBuild

end Lyapunov
