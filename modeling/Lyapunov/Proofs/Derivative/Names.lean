/-
The names of seeds and results. A derivative puts a word, the number of the direction and an underscore
in front of the name of an input or output; word and number can be read off the result, so that names
clash only with names that have such a tag already.
-/
import Mathlib.Data.List.Nodup
import Mathlib.Data.String.Basic

namespace Lyapunov

/-- What stands in front of a name in a direction. -/
def directionTag (word : String) (direction : Nat) : String := word ++ toString direction ++ "_"

/-- The names with the tag of each of `n` directions in front. -/
def tagged (word : String) (n : Nat) (names : List String) : List String :=
  (List.range n).flatMap fun d => names.map (directionTag word d ++ ·)

theorem toList_directionTag (word : String) (d : Nat) (name : String) :
    (directionTag word d ++ name).toList = word.toList ++ (Nat.toDigits 10 d ++ '_' :: name.toList) := by
  simp [directionTag]

/-- A name starts with the word of its tag. -/
theorem prefix_directionTag (word : String) (d : Nat) (name : String) :
    word.toList <+: (directionTag word d ++ name).toList := by
  rw [toList_directionTag]
  exact List.prefix_append _ _

/-- The digits end at the first underscore. -/
theorem append_underscore_inj {xs ys us vs : List Char} (hx : '_' ∉ xs) (hy : '_' ∉ ys)
    (h : xs ++ '_' :: us = ys ++ '_' :: vs) : xs = ys ∧ us = vs := by
  induction xs generalizing ys with
  | nil =>
    cases ys with
    | nil => exact ⟨rfl, (List.cons.inj h).2⟩
    | cons y ys => exact absurd ((List.cons.inj h).1 ▸ List.mem_cons_self) hy
  | cons x xs ih =>
    cases ys with
    | nil => exact absurd ((List.cons.inj h).1 ▸ List.mem_cons_self) hx
    | cons y ys =>
      obtain ⟨rfl, hrest⟩ := List.cons.inj h
      obtain ⟨rfl, rfl⟩ := ih (fun hm => hx (List.mem_cons_of_mem _ hm))
        (fun hm => hy (List.mem_cons_of_mem _ hm)) hrest
      exact ⟨rfl, rfl⟩

theorem directionTag_append_inj {word x y : String} {d e : Nat}
    (h : directionTag word d ++ x = directionTag word e ++ y) : d = e ∧ x = y := by
  have hlist := congrArg String.toList h
  rw [toList_directionTag, toList_directionTag, List.append_cancel_left_eq] at hlist
  obtain ⟨hdigits, hname⟩ := append_underscore_inj Nat.underscore_not_in_toDigits
    Nat.underscore_not_in_toDigits hlist
  refine ⟨?_, String.toList_injective hname⟩
  rw [← Nat.ofDigitChars_ten_toDigits (n := d), hdigits, Nat.ofDigitChars_ten_toDigits]

theorem mem_tagged {word name : String} {n : Nat} {names : List String} :
    name ∈ tagged word n names ↔ ∃ d < n, ∃ x ∈ names, directionTag word d ++ x = name := by
  simp only [tagged, List.mem_flatMap, List.mem_range, List.mem_map]

theorem nodup_tagged (word : String) (n : Nat) {names : List String} (h : names.Nodup) :
    (tagged word n names).Nodup := by
  refine List.nodup_flatMap.2 ⟨fun d _ => h.map fun x y hxy => (directionTag_append_inj hxy).2, ?_⟩
  refine List.nodup_range.imp fun hne name hd he => hne ?_
  obtain ⟨x, -, rfl⟩ := List.mem_map.1 hd
  obtain ⟨y, -, hxy⟩ := List.mem_map.1 he
  exact (directionTag_append_inj hxy).1.symm

/-- Tagged names keep a list free of repetitions unless one of them is in it. -/
theorem nodup_append_tagged {word : String} {n : Nat} {names targets : List String}
    (h : names.Nodup) (ht : targets.Nodup) :
    (names ++ tagged word n targets).Nodup ↔
      ∀ d < n, ∀ x ∈ targets, directionTag word d ++ x ∉ names := by
  rw [List.nodup_append]
  constructor
  · rintro ⟨-, -, hdisjoint⟩ d hd x hx hmem
    exact hdisjoint _ hmem _ (mem_tagged.2 ⟨d, hd, x, hx, rfl⟩) rfl
  · refine fun hnew => ⟨h, nodup_tagged word n ht, fun a ha b hb hab => ?_⟩
    obtain ⟨d, hd, x, hx, rfl⟩ := mem_tagged.1 hb
    exact hnew d hd x hx (hab ▸ ha)

end Lyapunov
