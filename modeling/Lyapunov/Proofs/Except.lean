/-
Computations that may fail: when a sequence of them succeeds, and which error it fails with.
-/
import Mathlib.Data.List.Forall2
import Mathlib.Data.List.Induction

namespace Lyapunov.Except

variable {ε β γ : Type}

theorem forall₂_exists_right {P : β → γ → Prop} {xs : List β} {ys : List γ}
    (h : List.Forall₂ P xs ys) : ∀ x ∈ xs, ∃ y ∈ ys, P x y := by
  induction h with
  | nil => intro x hx; cases hx
  | cons hp _ ih =>
    intro x hx
    rcases List.mem_cons.1 hx with rfl | hx
    · exact ⟨_, List.mem_cons_self, hp⟩
    · obtain ⟨y, hy, h⟩ := ih x hx
      exact ⟨y, List.mem_cons_of_mem _ hy, h⟩

theorem forall₂_imp_of_mem {P Q : β → γ → Prop} {xs : List β} {ys : List γ} (h : List.Forall₂ P xs ys)
    (himp : ∀ x ∈ xs, ∀ y ∈ ys, P x y → Q x y) : List.Forall₂ Q xs ys := by
  refine List.forall₂_iff_zip.2 ⟨h.length_eq, fun hmem => ?_⟩
  obtain ⟨hx, hy⟩ := List.of_mem_zip hmem
  exact himp _ hx _ hy (List.forall₂_zip h hmem)

theorem forall₂_getElem? {P : β → γ → Prop} {xs : List β} {ys : List γ} (h : List.Forall₂ P xs ys) {k : Nat}
    {x : β} (hx : xs[k]? = some x) : ∃ y, ys[k]? = some y ∧ P x y := by
  obtain ⟨hlt, rfl⟩ := List.getElem?_eq_some_iff.1 hx
  have hlt' : k < ys.length := h.length_eq ▸ hlt
  exact ⟨_, List.getElem?_eq_getElem hlt', h.get hlt hlt'⟩

theorem forall₂_zip_and {δ : Type} {P : β → γ → Prop} {Q : β → δ → Prop} {bs : List β} {cs : List γ}
    {ds : List δ} (hcs : List.Forall₂ P bs cs) (hds : List.Forall₂ Q bs ds) :
    List.Forall₂ (fun b p => P b p.1 ∧ Q b p.2) bs (cs.zip ds) := by
  induction hcs generalizing ds with
  | nil => exact .nil
  | cons hc _ ih =>
    cases hds with
    | cons hd hds => exact .cons ⟨hc, hd⟩ (ih hds)

theorem forall₂_zip_zip {δ δ' : Type} {P : β → δ → Prop} {Q : γ → δ' → Prop} {bs : List β} {cs : List γ}
    {ds : List δ} {es : List δ'} (hbs : List.Forall₂ P bs ds) (hcs : List.Forall₂ Q cs es) :
    List.Forall₂ (fun p q => P p.1 q.1 ∧ Q p.2 q.2) (bs.zip cs) (ds.zip es) := by
  induction hbs generalizing cs es with
  | nil => exact .nil
  | cons hb _ ih =>
    cases hcs with
    | nil => exact .nil
    | cons hc hcs => exact .cons ⟨hb, hc⟩ (ih hcs)

theorem bind_eq_ok {x : Except ε β} {f : β → Except ε γ} {c : γ} :
    x >>= f = .ok c ↔ ∃ b, x = .ok b ∧ f b = .ok c := by
  cases x with
  | error e =>
    constructor
    · intro h; cases h
    · rintro ⟨b, h, -⟩; cases h
  | ok b =>
    constructor
    · intro h; exact ⟨b, rfl, h⟩
    · rintro ⟨b, h, k⟩; cases h; exact k

theorem bind_eq_error {x : Except ε β} {f : β → Except ε γ} {e : ε} :
    x >>= f = .error e ↔ x = .error e ∨ ∃ b, x = .ok b ∧ f b = .error e := by
  cases x with
  | error e' =>
    constructor
    · intro h; cases h; exact .inl rfl
    · rintro (h | ⟨b, h, -⟩) <;> cases h; rfl
  | ok b =>
    constructor
    · intro h; exact .inr ⟨b, rfl, h⟩
    · rintro (h | ⟨b, h, k⟩) <;> cases h; exact k

/-- A list of computations succeeds when each of them does, with their results in order. -/
theorem mapM_eq_ok {f : β → Except ε γ} {xs : List β} {ys : List γ} :
    xs.mapM f = .ok ys ↔ List.Forall₂ (fun x y => f x = .ok y) xs ys := by
  induction xs generalizing ys with
  | nil =>
    rw [List.mapM_nil, List.forall₂_nil_left_iff]
    constructor
    · intro h; cases h; rfl
    · rintro rfl; rfl
  | cons x xs ih =>
    rw [List.mapM_cons, bind_eq_ok]
    constructor
    · rintro ⟨y, hy, h⟩
      obtain ⟨ys', hys, h⟩ := bind_eq_ok.1 h
      cases h
      exact .cons hy (ih.1 hys)
    · intro h
      cases h with
      | cons hy hys => exact ⟨_, hy, bind_eq_ok.2 ⟨_, ih.2 hys, rfl⟩⟩

/-- Computations that do the same at corresponding elements do the same for lists of them. -/
theorem mapM_congr_of_forall₂ {δ : Type} {f : β → Except ε δ} {g : γ → Except ε δ} {xs : List β}
    {ys : List γ} (h : List.Forall₂ (fun x y => f x = g y) xs ys) : xs.mapM f = ys.mapM g := by
  induction h with
  | nil => rfl
  | cons hxy _ ih => rw [List.mapM_cons, List.mapM_cons, hxy, ih]

theorem mapM_congr {f g : β → Except ε γ} {xs : List β} (h : ∀ x ∈ xs, f x = g x) :
    xs.mapM f = xs.mapM g :=
  mapM_congr_of_forall₂ (List.forall₂_same.2 h)

theorem exists_mapM_eq_ok {f : β → Except ε γ} {xs : List β} :
    (∃ ys, xs.mapM f = .ok ys) ↔ ∀ x ∈ xs, ∃ y, f x = .ok y := by
  constructor
  · rintro ⟨ys, h⟩ x hx
    obtain ⟨y, -, hxy⟩ := forall₂_exists_right (mapM_eq_ok.1 h) x hx
    exact ⟨y, hxy⟩
  · intro h
    induction xs with
    | nil => exact ⟨[], rfl⟩
    | cons x xs ih =>
      obtain ⟨y, hy⟩ := h x List.mem_cons_self
      obtain ⟨ys, hys⟩ := ih fun z hz => h z (List.mem_cons_of_mem _ hz)
      exact ⟨y :: ys, mapM_eq_ok.2 (.cons hy (mapM_eq_ok.1 hys))⟩

theorem forM_eq_ok {f : β → Except ε Unit} {xs : List β} : xs.forM f = .ok () ↔ ∀ x ∈ xs, f x = .ok () := by
  induction xs with
  | nil => exact ⟨fun _ => by simp, fun _ => rfl⟩
  | cons x xs ih =>
    rw [List.forM, bind_eq_ok, Unique.exists_iff, List.forall_mem_cons, ← ih]

/-- A list of checks fails with the error of the first one that fails. -/
theorem forM_eq_error {f : β → Except ε Unit} {xs : List β} {e : ε} :
    xs.forM f = .error e ↔
      ∃ before x after, xs = before ++ x :: after ∧ (∀ y ∈ before, f y = .ok ()) ∧ f x = .error e := by
  induction xs with
  | nil =>
    constructor
    · intro h; cases h
    · rintro ⟨before, x, after, h, -⟩; simp at h
  | cons a xs ih =>
    rw [List.forM, bind_eq_error]
    constructor
    · rintro (ha | ⟨⟨⟩, ha, h⟩)
      · exact ⟨[], a, xs, rfl, by simp, ha⟩
      · obtain ⟨before, x, after, rfl, hbefore, hx⟩ := ih.1 h
        exact ⟨a :: before, x, after, rfl, List.forall_mem_cons.2 ⟨ha, hbefore⟩, hx⟩
    · rintro ⟨before, x, after, h, hbefore, hx⟩
      cases before with
      | nil =>
        cases h
        exact .inl hx
      | cons b before =>
        cases h
        obtain ⟨ha, hbefore⟩ := List.forall_mem_cons.1 hbefore
        exact .inr ⟨(), ha, ih.2 ⟨before, x, after, rfl, hbefore, hx⟩⟩

/-- A list of computations fails with the error of the first one that fails. -/
theorem mapM_eq_error {f : β → Except ε γ} {xs : List β} {e : ε} :
    xs.mapM f = .error e ↔
      ∃ before x after, xs = before ++ x :: after ∧ (∀ y ∈ before, ∃ v, f y = .ok v) ∧
        f x = .error e := by
  induction xs with
  | nil =>
    rw [List.mapM_nil]
    constructor
    · intro h; cases h
    · rintro ⟨before, x, after, h, -⟩; simp at h
  | cons a xs ih =>
    rw [List.mapM_cons, bind_eq_error]
    constructor
    · rintro (ha | ⟨v, ha, h⟩)
      · exact ⟨[], a, xs, rfl, by simp, ha⟩
      · rcases bind_eq_error.1 h with h | ⟨vs, -, h⟩
        · obtain ⟨before, x, after, rfl, hbefore, hx⟩ := ih.1 h
          exact ⟨a :: before, x, after, rfl, List.forall_mem_cons.2 ⟨⟨v, ha⟩, hbefore⟩, hx⟩
        · cases h
    · rintro ⟨before, x, after, h, hbefore, hx⟩
      cases before with
      | nil =>
        cases h
        exact .inl hx
      | cons b before =>
        cases h
        obtain ⟨⟨v, ha⟩, hbefore⟩ := List.forall_mem_cons.1 hbefore
        exact .inr ⟨v, ha, bind_eq_error.2 (.inl (ih.2 ⟨before, x, after, rfl, hbefore, hx⟩))⟩

/-- A check that goes through a list from first to last fails with the error of the first element that
offends after those before it. -/
theorem check_eq_error {check : List β → Except ε γ} {xs : List β} (fault : List β → β → ε → Prop)
    (hnil : ∀ e, check [] ≠ .error e)
    (hsnoc : ∀ before x after e, xs = before ++ x :: after → (check (before ++ [x]) = .error e ↔
      check before = .error e ∨ (∃ v, check before = .ok v) ∧ fault before x e)) {e : ε} :
    check xs = .error e ↔
      ∃ before x after, xs = before ++ x :: after ∧ (∃ v, check before = .ok v) ∧ fault before x e := by
  induction xs using List.reverseRecOn with
  | nil => exact ⟨fun h => absurd h (hnil e), by rintro ⟨before, x, after, h, -⟩; simp at h⟩
  | append_singleton xs y ih =>
    rw [hsnoc xs y [] e rfl, ih fun before x after e h => hsnoc before x (after ++ [y]) e (by rw [h]; simp)]
    constructor
    · rintro (⟨before, x, after, rfl, h⟩ | h)
      · exact ⟨before, x, after ++ [y], by simp, h⟩
      · exact ⟨xs, y, [], rfl, h⟩
    · rintro ⟨before, x, after, hsplit, h⟩
      rcases List.eq_nil_or_concat after with rfl | ⟨after', z, rfl⟩
      · obtain ⟨rfl, hx⟩ := List.append_inj' hsplit rfl
        cases hx
        exact .inr h
      · rw [List.concat_eq_append, ← List.cons_append, ← List.append_assoc] at hsplit
        obtain ⟨rfl, -⟩ := List.append_inj' hsplit rfl
        exact .inl ⟨before, x, after', rfl, h⟩

end Lyapunov.Except
