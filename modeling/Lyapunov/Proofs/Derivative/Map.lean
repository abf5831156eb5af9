/-
Derivatives under a change of scalars. No rule of differentiation looks at a number, so that the derivative
of the image of a function, under a function of the scalars that keeps zero, consists of the images of what
the derivative of the function consists of.
-/
import Lyapunov.Proofs.Derivative.Renaming

namespace Lyapunov

variable {α β : Type} {φ : α → β}

/-! ## Named nodes -/

/-- The images of named nodes. -/
def mapNamed (φ : α → β) (l : List (String × Expr α)) : List (String × Expr β) :=
  l.map fun p => (p.1, p.2.map φ)

theorem map_fst_mapNamed (l : List (String × Expr α)) : (mapNamed φ l).map (·.1) = l.map (·.1) := by
  rw [mapNamed, List.map_map]
  rfl

theorem map_snd_mapNamed (l : List (String × Expr α)) :
    (mapNamed φ l).map (·.2) = (l.map (·.2)).map (Expr.map φ) := by
  rw [mapNamed, List.map_map, List.map_map]
  rfl

theorem shapes_mapNamed (l : List (String × Expr α)) :
    (mapNamed φ l).map (·.2.shape) = l.map (·.2.shape) := by
  rw [mapNamed, List.map_map]
  exact List.map_congr_left fun p _ => Expr.shape_map φ p.2

/-- The images of the seeds and results of a direction. -/
def Added.map (φ : α → β) (r : Added α) : Added β := (mapNamed φ r.1, mapNamed φ r.2)

/-- Where numbers and names stay as they are, named nodes of one form are images. -/
theorem alikeNamed_same_iff {l : List (String × Expr α)} {l' : List (String × Expr β)} :
    List.Forall₂ (AlikeNamed .same φ) l l' ↔ mapNamed φ l = l' := by
  have himage (p : String × Expr α) (q : String × Expr β) :
      AlikeNamed .same φ p q ↔ (p.1, p.2.map φ) = q := by
    rw [Prod.ext_iff, ← Expr.alike_same_iff]
    exact ⟨fun h => ⟨h.name, h.node⟩, fun h => ⟨h.1, h.2⟩⟩
  rw [mapNamed, ← List.forall₂_eq_eq_eq, List.forall₂_map_left_iff]
  exact ⟨fun h => h.imp fun p q => (himage p q).1, fun h => h.imp fun p q => (himage p q).2⟩

theorem AlikeAdded.map_eq {rs : List (Added α)} {rs' : List (Added β)}
    (h : List.Forall₂ (AlikeAdded .same φ) rs rs') : rs' = rs.map (Added.map φ) := by
  induction h with
  | nil => rfl
  | cons hr _ ih =>
    rw [List.map_cons, ← ih, Added.map, alikeNamed_same_iff.1 hr.seeds, alikeNamed_same_iff.1 hr.results]

/-! ## Functions -/

namespace Func

/-- There is a function of the images of the inputs and outputs. -/
theorem NumberedBelow.exists_map {f : Func α} {n : Nat} (hf : f.NumberedBelow n) (φ : α → β) :
    ∃ f' : Func β, f'.inputs = mapNamed φ f.inputs ∧ f'.outputs = mapNamed φ f.outputs ∧
      f'.NumberedBelow n := by
  have hroots : ∀ r ∈ (mapNamed φ f.inputs).map (·.2) ++ (mapNamed φ f.outputs).map (·.2),
      r ∈ Expr.map φ '' f.nodes := by
    intro r hr
    rw [map_snd_mapNamed, map_snd_mapNamed, ← List.map_append] at hr
    obtain ⟨x, hx, rfl⟩ := List.mem_map.1 hr
    exact ⟨x, .root hx, rfl⟩
  have hgraph := hf.graph.map φ
  have hnamed : Named (mapNamed φ f.inputs) (mapNamed φ f.outputs) := by
    refine ⟨fun p hp => ?_, ?_, ?_, ?_⟩
    · obtain ⟨q, hq, rfl⟩ := List.mem_map.1 hp
      exact (Expr.isSymbol_map φ q.2).trans (f.named.symbols q hq)
    · rw [map_fst_mapNamed]
      exact f.named.inputNames
    · rw [mapNamed, List.map_map]
      simpa only [Function.comp_def, Expr.id_map] using f.named.inputIds
    · rw [map_fst_mapNamed]
      exact f.named.outputNames
  have hfits : ∀ e, Expr.Reachable ((mapNamed φ f.outputs).map (·.2)) e → e.checkOperands = .ok () ∧
      (e.isSymbol = true → ∃ p ∈ mapNamed φ f.inputs, p.2.id = e.id) := by
    intro e he
    rw [map_snd_mapNamed] at he
    obtain ⟨x, hx, rfl⟩ := Expr.reachable_map.1 he
    have hnode := f.mem_nodes_of_reachable hx
    refine ⟨(Expr.checkOperands_map φ x).trans (hf.check x hnode), fun hs => ?_⟩
    rw [Expr.isSymbol_map] at hs
    obtain ⟨p, hp, rfl⟩ := hf.symbol x hnode hs
    exact ⟨_, List.mem_map_of_mem hp, rfl⟩
  have hdag := hgraph.isDag fun r hr => hroots r (List.mem_append_right _ hr)
  obtain ⟨f', hf'⟩ := (@exists_make_iff _ f.name _ _ hdag).2 ⟨hnamed, hfits⟩
  obtain ⟨-, hi, ho⟩ := make_eq_ok hf'
  refine ⟨f', hi, ho, hgraph.isDag (hi ▸ ho ▸ hroots), fun e he => ?_⟩
  obtain ⟨x, hx, rfl⟩ := hgraph.reachable (hi ▸ ho ▸ hroots) he
  rw [Expr.id_map]
  exact hf.below x hx

variable {f : Func α} {f' : Func β} (hi : f'.inputs = mapNamed φ f.inputs)
  (ho : f'.outputs = mapNamed φ f.outputs)

include hi ho

theorem alike_same : Alike .same φ f f' :=
  ⟨alikeNamed_same_iff.2 hi.symm, alikeNamed_same_iff.2 ho.symm⟩

variable [Scalar α] [Scalar β] (h0 : φ 0 = 0)

include h0

/-- A forward derivative of the image adds the images of what that of the function adds. -/
theorem forwardAdded_map (n s : Nat) :
    ((f'.forwardAdded n).run s).1 = ((f.forwardAdded n).run s).1.map (Added.map φ) :=
  AlikeAdded.map_eq ((alike_same hi ho).parallel_forwardAdded h0 n s s fun _ => rfl).1

/-- A reverse derivative of the image adds the images of what that of the function adds. -/
theorem reverseAdded_map (n s : Nat) :
    ((f'.reverseAdded n).run s).1 = ((f.reverseAdded n).run s).1.map (Added.map φ) :=
  AlikeAdded.map_eq ((alike_same hi ho).parallel_reverseAdded h0 n s s fun _ => rfl).1

end Func

end Lyapunov
