/-
How a derivative extends a function. Each direction adds a new symbol for each target, under the name of
the target with a tag in front, and a node for each result; the directions together add different
symbols. What follows for the extended function holds of forward and reverse derivatives alike.
-/
import Lyapunov.Proofs.Derivative.Names
import Lyapunov.Proofs.Derivative.Nodes
import Lyapunov.Proofs.Func.Nodes

namespace Lyapunov

open Build

variable {α : Type}

/-- A list of seeds and a list of results. -/
abbrev Added (α : Type) := List (String × Expr α) × List (String × Expr α)

/-- The seed is a symbol of the shape of the target, under the tagged name of the target. -/
structure IsSeed (tag : String) (target seed : String × Expr α) : Prop where
  name : seed.1 = tag ++ target.1
  symbol : seed.2.isSymbol = true
  shape : seed.2.shape = target.2.shape

/-- The node for a result is one of the graph, of the shape of the result and under its tagged name. -/
structure IsResult (F : Prop) (S : Set (Expr α)) (tag : String) (result node : String × Expr α) :
    Prop where
  name : node.1 = tag ++ result.1
  node : Node F S result.2.shape node.2

/-- The seeds are different new nodes of the graph `S'`, which are not in `S`. -/
structure Fresh (S S' : Set (Expr α)) (seeds : List (String × Expr α)) : Prop where
  mem : ∀ p ∈ seeds, p.2 ∈ S'
  new : ∀ p ∈ seeds, p.2 ∉ S
  nodup : (seeds.map (·.2)).Nodup

theorem fresh_nil {S S' : Set (Expr α)} : Fresh S S' [] := ⟨by simp, by simp, by simp⟩

theorem Fresh.append {S S' S'' : Set (Expr α)} {xs ys : List (String × Expr α)} (hx : Fresh S S' xs)
    (hy : Fresh S' S'' ys) (h : S ⊆ S') (h' : S' ⊆ S'') : Fresh S S'' (xs ++ ys) where
  mem p hp := by
    rcases List.mem_append.1 hp with hp | hp
    exacts [h' (hx.mem p hp), hy.mem p hp]
  new p hp := by
    rcases List.mem_append.1 hp with hp | hp
    exacts [hx.new p hp, fun hS => hy.new p hp (h hS)]
  nodup := by
    rw [List.map_append, List.nodup_append]
    refine ⟨hx.nodup, hy.nodup, fun a ha b hb hab => ?_⟩
    obtain ⟨p, hp, rfl⟩ := List.mem_map.1 ha
    obtain ⟨q, hq, rfl⟩ := List.mem_map.1 hb
    exact hy.new q hq (hab ▸ hx.mem p hp)

theorem Fresh.mono {S S' S'' : Set (Expr α)} {xs : List (String × Expr α)} (hx : Fresh S S' xs)
    (h : S' ⊆ S'') : Fresh S S'' xs := ⟨fun p hp => h (hx.mem p hp), hx.new, hx.nodup⟩

theorem exists_mem_zip {β γ : Type} {l : List β} {m : List γ} (hlen : l.length = m.length) {x : β}
    (hx : x ∈ l) : ∃ y, (x, y) ∈ l.zip m := by
  obtain ⟨k, hk⟩ := List.mem_iff_getElem?.1 hx
  have hlt := (List.getElem?_eq_some_iff.1 hk).1
  exact ⟨_, List.mem_iff_getElem?.2
    ⟨k, List.getElem?_zip_eq_some.2 ⟨hk, List.getElem?_eq_getElem (hlen ▸ hlt)⟩⟩⟩

theorem mem_zip_zip {β γ δ : Type} {l : List β} {l' : List γ} {l'' : List δ} {x : β} {y : γ} {z : δ}
    (h : (x, y, z) ∈ l.zip (l'.zip l'')) :
    (x, y) ∈ l.zip l' ∧ (x, z) ∈ l.zip l'' ∧ (y, z) ∈ l'.zip l'' := by
  obtain ⟨k, hk⟩ := List.mem_iff_getElem?.1 h
  obtain ⟨hx, hyz⟩ := List.getElem?_zip_eq_some.1 hk
  obtain ⟨hy, hz⟩ := List.getElem?_zip_eq_some.1 hyz
  exact ⟨List.mem_iff_getElem?.2 ⟨k, List.getElem?_zip_eq_some.2 ⟨hx, hy⟩⟩,
    List.mem_iff_getElem?.2 ⟨k, List.getElem?_zip_eq_some.2 ⟨hx, hz⟩⟩, (List.of_mem_zip h).2⟩

/-! ## Seeds -/

section Seeds

variable {P : Expr α → Prop} (tag : String)

theorem Func.grows_newSeed {target : String × Expr α}
    (hP : ∀ i name, P (.symbol i name target.2.shape)) (S : Set (Expr α)) :
    Grows P S (do return (tag ++ target.1, ← Expr.newSymbol (tag ++ target.1) target.2.shape))
      fun S' seed => IsSeed tag target seed ∧ Fresh S S' [seed] ∧
        ∀ e ∈ S', e ∈ S ∨ e ∈ nodesOf [seed] := by
  refine grows_bind (Q := fun S' seed => S' = insert seed S ∧ seed ∉ S ∧ seed.isSymbol = true ∧
    seed.shape = target.2.shape) ?_ ?_
  · refine grows_newSymbol (fun i => hP i _) fun i hi => ⟨rfl, fun hS => ?_, rfl, rfl⟩
    exact absurd (hi _ hS) (lt_irrefl i)
  · rintro S' seed - ⟨rfl, hnew, hsymbol, hshape⟩
    refine grows_pure ⟨⟨rfl, hsymbol, hshape⟩, ⟨?_, ?_, List.nodup_singleton _⟩, ?_⟩
    · simp
    · simpa using hnew
    · rintro e (rfl | he)
      exacts [.inr ⟨_, List.mem_singleton_self _, rfl⟩, .inl he]

/-- Creating seeds adds these and nothing else to the graph. -/
theorem Func.grows_newSeeds {targets : List (String × Expr α)}
    (hP : ∀ p ∈ targets, ∀ i name, P (.symbol i name p.2.shape)) (S : Set (Expr α)) :
    Grows P S (Func.newSeeds tag targets) fun S' seeds =>
      List.Forall₂ (IsSeed tag) targets seeds ∧ Fresh S S' seeds ∧
        ∀ e ∈ S', e ∈ S ∨ e ∈ nodesOf seeds := by
  unfold Func.newSeeds
  induction targets generalizing S with
  | nil => exact grows_pure ⟨.nil, fresh_nil, fun e he => .inl he⟩
  | cons target targets ih =>
    rw [List.mapM_cons]
    refine grows_bind (grows_newSeed tag (hP target List.mem_cons_self) S) fun S₁ seed hS h => ?_
    refine grows_bind (ih (fun p hp => hP p (List.mem_cons_of_mem _ hp)) S₁) fun S₂ seeds hS' h' => ?_
    obtain ⟨hseed, hfresh, honly⟩ := h
    obtain ⟨hseeds, hfresh', honly'⟩ := h'
    refine grows_pure ⟨.cons hseed hseeds, hfresh.append hfresh' hS hS', fun e he => ?_⟩
    rcases honly' e he with he | ⟨p, hp, rfl⟩
    · rcases honly e he with he | ⟨p, hp, rfl⟩
      · exact .inl he
      · exact .inr ⟨p, List.mem_cons.2 (.inl (List.mem_singleton.1 hp)), rfl⟩
    · exact .inr ⟨p, List.mem_cons_of_mem _ hp, rfl⟩

theorem Func.returns_newSeeds (targets : List (String × Expr α)) :
    (Func.newSeeds tag targets).Returns (List.Forall₂ (IsSeed tag) targets) :=
  returns_mapM fun _ _ _ => ⟨rfl, rfl, rfl⟩

end Seeds

/-! ## Directions -/

section Directions

variable {F : Prop} {R : Shape → Prop} {G : Set (Expr α)} {targets results : List (String × Expr α)}

/-- What a computation does that adds a direction to a function with the nodes `G`. -/
def Extends (F : Prop) (R : Shape → Prop) (G : Set (Expr α)) (targets results : List (String × Expr α))
    (tag : String) (m : Build (Added α)) : Prop :=
  ∀ T S n, G ⊆ S → Store (Fits F R T) n S →
    ∃ S', S ⊆ S' ∧ Store (Fits F R (T ∪ nodesOf (m.run n).1.1)) (m.run n).2 S' ∧
      List.Forall₂ (IsSeed tag) targets (m.run n).1.1 ∧ Fresh S S' (m.run n).1.1 ∧
      List.Forall₂ (IsResult F S' tag) results (m.run n).1.2

/-- A computation that creates seeds and continues with nodes of the same symbols adds a direction. -/
theorem extends_newSeeds {tag : String}
    {k : List (String × Expr α) → Build (List (String × Expr α))}
    (hk : ∀ T S seeds, G ⊆ S → List.Forall₂ (IsSeed tag) targets seeds → (∀ p ∈ seeds, p.2 ∈ S) →
      Grows (Fits F R T) S (k seeds) fun S' rs => List.Forall₂ (IsResult F S' tag) results rs)
    (htargets : ∀ p ∈ targets, p.2 ∈ G) :
    Extends F R G targets results tag (do
      let seeds ← Func.newSeeds tag targets
      let rs ← k seeds
      return (seeds, rs)) := by
  intro T S n hGS hS
  -- which symbols the seeds are is known only after they have been created, so at first all are allowed
  have hany : Store (Fits F R Set.univ) n S := hS.imp fun e _ he => ⟨he.check, fun _ => trivial⟩
  have hP : ∀ p ∈ targets, ∀ i name, Fits F R Set.univ (.symbol i name p.2.shape : Expr α) := by
    intro p hp i name
    have hfit := hS.holds _ (hGS (htargets p hp))
    exact ⟨fun hF => ⟨rfl, (hfit.check hF).2⟩, fun _ => trivial⟩
  obtain ⟨S₁, hS₁, hstore, hseeds, hfresh, honly⟩ := Func.grows_newSeeds tag hP S n hany
  have hstore₁ : Store (Fits F R (T ∪ nodesOf ((Func.newSeeds tag targets).run n).1))
      ((Func.newSeeds tag targets).run n).2 S₁ := by
    refine hstore.imp fun e he hfit => ⟨hfit.check, fun hsymbol => ?_⟩
    rcases honly e he with he | he
    exacts [.inl ((hS.holds e he).symbol hsymbol), .inr he]
  obtain ⟨S₂, hS₂, hstore₂, hresults⟩ := hk _ S₁ _ (hGS.trans hS₁) hseeds hfresh.mem _ hstore₁
  exact ⟨S₂, hS₁.trans hS₂, hstore₂, hseeds, hfresh.mono hS₂, hresults⟩

/-- The seeds and results of several directions. -/
def Directed (F : Prop) (S : Set (Expr α)) (tag : Nat → String) (targets results : List (String × Expr α))
    (ds : List Nat) (rs : List (Added α)) : Prop :=
  List.Forall₂ (fun d r => List.Forall₂ (IsSeed (tag d)) targets r.1 ∧
    List.Forall₂ (IsResult F S (tag d)) results r.2) ds rs

/-- What several directions add together. -/
theorem store_directions {tag : Nat → String} {m : Nat → Build (Added α)}
    (h : ∀ d, Extends F R G targets results (tag d) (m d)) (ds : List Nat) :
    ∀ T S n, G ⊆ S → Store (Fits F R T) n S →
      ∃ S', S ⊆ S' ∧
        Store (Fits F R (T ∪ nodesOf (((ds.mapM m).run n).1.flatMap (·.1)))) ((ds.mapM m).run n).2 S' ∧
        Directed F S' tag targets results ds ((ds.mapM m).run n).1 ∧
        Fresh S S' (((ds.mapM m).run n).1.flatMap (·.1)) := by
  -- by induction on the directions; the seeds of each one join the symbols that the others may contain
  induction ds with
  | nil =>
    intro T S n _ hS
    refine ⟨S, subset_rfl, hS.imp fun e _ he => ⟨he.check, fun hs => .inl (he.symbol hs)⟩, .nil, ?_⟩
    exact fresh_nil
  | cons d ds ih =>
    intro T S n hG hS
    rw [List.mapM_cons]
    obtain ⟨S₁, hS₁, hstore₁, hseeds, hfresh, hresults⟩ := h d T S n hG hS
    obtain ⟨S₂, hS₂, hstore₂, hrest, hfresh₂⟩ := ih _ S₁ _ (hG.trans hS₁) hstore₁
    refine ⟨S₂, hS₁.trans hS₂, ?_, .cons ⟨hseeds, ?_⟩ hrest, hfresh.append hfresh₂ hS₁ hS₂⟩
    · refine hstore₂.imp fun e _ he => ⟨he.check, fun hs => ?_⟩
      rcases he.symbol hs with (hT | ⟨p, hp, rfl⟩) | ⟨p, hp, rfl⟩
      · exact .inl hT
      · exact .inr ⟨p, List.mem_append_left _ hp, rfl⟩
      · exact .inr ⟨p, List.mem_append_right _ hp, rfl⟩
    · exact hresults.imp fun y r hr => ⟨hr.name, hr.node.mono hS₂⟩

end Directions

theorem exists_getElem?_of_range {β : Type} {Q : Nat → β → Prop} {n : Nat} {rs : List β}
    (h : List.Forall₂ Q (List.range n) rs) {d : Nat} (hd : d < n) : ∃ r, rs[d]? = some r ∧ Q d r :=
  Except.forall₂_getElem? h (List.getElem?_range hd)

/-! ## Names and shapes -/

section Names

variable {F : Prop} {S : Set (Expr α)} {targets results : List (String × Expr α)}

theorem names_flatMap {tag : Nat → String} {nodes : Added α → List (String × Expr α)} {ds : List Nat}
    {rs : List (Added α)}
    (h : List.Forall₂ (fun d r => List.Forall₂ (fun p o => o.1 = tag d ++ p.1) targets (nodes r)) ds rs) :
    (rs.flatMap nodes).map (·.1) = ds.flatMap fun d => (targets.map (·.1)).map (tag d ++ ·) := by
  induction h with
  | nil => rfl
  | @cons d r ds rs hr _ ih =>
    have hnames : (nodes r).map (·.1) = (targets.map (·.1)).map (tag d ++ ·) := by
      rw [List.map_map, ← List.forall₂_eq_eq_eq, List.forall₂_map_left_iff, List.forall₂_map_right_iff]
      exact hr.flip
    rw [List.flatMap_cons, List.map_append, hnames, ih, List.flatMap_cons]

theorem Directed.seedNames {word : String} {n : Nat} {rs : List (Added α)}
    (h : Directed F S (directionTag word) targets results (List.range n) rs) :
    (rs.flatMap (·.1)).map (·.1) = tagged word n (targets.map (·.1)) :=
  names_flatMap (h.imp fun _ _ hr => hr.1.imp fun _ _ hs => hs.name)

theorem Directed.resultNames {word : String} {n : Nat} {rs : List (Added α)}
    (h : Directed F S (directionTag word) targets results (List.range n) rs) :
    (rs.flatMap (·.2)).map (·.1) = tagged word n (results.map (·.1)) :=
  names_flatMap (h.imp fun _ _ hr => hr.2.imp fun _ _ hs => hs.name)

end Names

/-! ## Running -/

section Run

variable {β γ : Type}

theorem TryBuild.run_bind_ok {m : TryBuild β} {f : β → TryBuild γ} {n n' : Nat} {b : β}
    (h : m.run.run n = (.ok b, n')) : (m >>= f).run.run n = (f b).run.run n' := by
  rw [ExceptT.run_bind, StateT.run_bind, h]
  rfl

theorem TryBuild.run_bind_eq_ok {m : TryBuild β} {f : β → TryBuild γ} {n n' : Nat} {c : γ} :
    (m >>= f).run.run n = (.ok c, n') ↔
      ∃ b n₁, m.run.run n = (.ok b, n₁) ∧ (f b).run.run n₁ = (.ok c, n') := by
  constructor
  · intro h
    rw [ExceptT.run_bind, StateT.run_bind] at h
    rcases hm : m.run.run n with ⟨b | b, n₁⟩
    · rw [hm] at h
      cases h
    · rw [hm] at h
      exact ⟨b, n₁, rfl, h⟩
  · rintro ⟨b, n₁, hm, h⟩
    exact (run_bind_ok hm).trans h

/-- Computations that do not fail run one after the other. -/
theorem TryBuild.run_mapM_liftM (m : β → Build γ) (l : List β) (n : Nat) :
    (l.mapM fun x => (liftM (m x) : TryBuild γ)).run.run n =
      (.ok ((l.mapM m).run n).1, ((l.mapM m).run n).2) := by
  induction l generalizing n with
  | nil => rfl
  | cons x l ih =>
    have hx : (liftM (m x) : TryBuild γ).run.run n = (.ok ((m x).run n).1, ((m x).run n).2) := rfl
    rw [List.mapM_cons, List.mapM_cons, run_bind_ok hx, run_bind_ok (ih _)]
    rfl

end Run

/-- The nodes of a function fit, and its symbols are the inputs. -/
theorem Func.NumberedBelow.store {f : Func α} {n : Nat} (h : f.NumberedBelow n) {F : Prop}
    {R : Shape → Prop} (hR : F → ∀ e ∈ f.nodes, R e.shape) :
    Store (Fits F R (nodesOf f.inputs)) n f.nodes :=
  ⟨h.graph, h.below, fun e he => ⟨fun hF => ⟨h.check e he, hR hF e he⟩, h.symbol e he⟩⟩

/-! ## The extended function -/

/-- A graph that contains a function, with seeds and results that can be added to the function. -/
structure Extension (F : Prop) (R : Shape → Prop) (f : Func α) (n : Nat) (S : Set (Expr α))
    (seeds results : List (String × Expr α)) : Prop where
  store : Store (Fits F R (nodesOf f.inputs ∪ nodesOf seeds)) n S
  nodes : f.nodes ⊆ S
  fresh : Fresh f.nodes S seeds
  symbol : ∀ p ∈ seeds, p.2.isSymbol = true
  results : ∀ p ∈ results, p.2 ∈ S

/-- Directions extend a function. -/
theorem exists_extension {F : Prop} {R : Shape → Prop} {f : Func α} {n : Nat}
    (hf : f.NumberedBelow n) (hR : F → ∀ e ∈ f.nodes, R e.shape)
    {targets results : List (String × Expr α)} {tag : Nat → String} {m : Nat → Build (Added α)}
    (h : ∀ d, Extends F R f.nodes targets results (tag d) (m d)) (ds : List Nat) :
    ∃ S, Extension F R f ((ds.mapM m).run n).2 S (((ds.mapM m).run n).1.flatMap (·.1))
        (((ds.mapM m).run n).1.flatMap (·.2)) ∧
      Directed F S tag targets results ds ((ds.mapM m).run n).1 := by
  obtain ⟨S, hS, hstore, hadded, hfresh⟩ :=
    store_directions h ds _ _ n subset_rfl (hf.store hR)
  refine ⟨S, ⟨hstore, hS, hfresh, fun p hp => ?_, fun p hp => ?_⟩, hadded⟩
  · obtain ⟨r, hr, hp⟩ := List.mem_flatMap.1 hp
    obtain ⟨d, -, hseeds, -⟩ := Except.forall₂_exists_right hadded.flip r hr
    obtain ⟨x, -, hx⟩ := Except.forall₂_exists_right hseeds.flip p hp
    exact hx.symbol
  · obtain ⟨r, hr, hp⟩ := List.mem_flatMap.1 hp
    obtain ⟨d, -, -, hresults⟩ := Except.forall₂_exists_right hadded.flip r hr
    obtain ⟨x, -, hx⟩ := Except.forall₂_exists_right hresults.flip p hp
    exact hx.node.mem

namespace Extension

variable {F : Prop} {R : Shape → Prop} {f : Func α} {n : Nat} {S : Set (Expr α)}
  {seeds results : List (String × Expr α)}

theorem output_mem (h : Extension F R f n S seeds results) :
    ∀ e ∈ (f.outputs ++ results).map (·.2), e ∈ S := by
  intro e he
  obtain ⟨p, hp, rfl⟩ := List.mem_map.1 he
  rcases List.mem_append.1 hp with hp | hp
  exacts [h.nodes (f.output_mem_nodes hp), h.results p hp]

theorem input_mem (h : Extension F R f n S seeds results) :
    ∀ e ∈ (f.inputs ++ seeds).map (·.2), e ∈ S := by
  intro e he
  obtain ⟨p, hp, rfl⟩ := List.mem_map.1 he
  rcases List.mem_append.1 hp with hp | hp
  exacts [h.nodes (f.input_mem_nodes hp), h.fresh.mem p hp]

/-- The nodes of the extended function are nodes of the graph. -/
theorem nodes_subset (h : Extension F R f n S seeds results) {name : String} {g : Func α}
    (hg : Func.make name (f.inputs ++ seeds) (f.outputs ++ results) = .ok g) : g.nodes ⊆ S := by
  obtain ⟨-, hi, ho⟩ := Func.make_eq_ok hg
  refine fun e he => h.store.graph.reachable (fun r hr => ?_) he
  rw [hi, ho] at hr
  rcases List.mem_append.1 hr with hr | hr
  exacts [h.input_mem r hr, h.output_mem r hr]

/-- The extended function has numbers below that of the next node. -/
theorem numberedBelow (h : Extension F R f n S seeds results) {name : String} {g : Func α}
    (hg : Func.make name (f.inputs ++ seeds) (f.outputs ++ results) = .ok g) : g.NumberedBelow n where
  graph := h.store.graph.isDag fun _ hr => h.nodes_subset hg (.root hr)
  below e he := h.store.below e (h.nodes_subset hg he)

theorem symbols (h : Extension F R f n S seeds results) :
    ∀ p ∈ f.inputs ++ seeds, p.2.isSymbol = true := by
  intro p hp
  rcases List.mem_append.1 hp with hp | hp
  exacts [f.named.symbols p hp, h.symbol p hp]

/-- The seeds are new symbols, so that no number is that of two inputs. -/
theorem nodup_inputIds (h : Extension F R f n S seeds results) :
    ((f.inputs ++ seeds).map (·.2.id)).Nodup := by
  have hnodup : ((f.inputs ++ seeds).map (·.2)).Nodup := by
    rw [List.map_append, List.nodup_append]
    refine ⟨.of_map Expr.id ?_, h.fresh.nodup, fun a ha b hb hab => ?_⟩
    · rw [List.map_map]
      exact f.named.inputIds
    · obtain ⟨p, hp, rfl⟩ := List.mem_map.1 ha
      obtain ⟨q, hq, rfl⟩ := List.mem_map.1 hb
      exact h.fresh.new q hq (hab ▸ f.input_mem_nodes hp)
  have hids := hnodup.map_on fun x hx y hy =>
    h.store.graph.unique x (h.input_mem x hx) y (h.input_mem y hy)
  rwa [List.map_map] at hids

/-- The symbols that the outputs can reach are inputs. -/
theorem exists_input (h : Extension F R f n S seeds results) {e : Expr α}
    (he : Expr.Reachable ((f.outputs ++ results).map (·.2)) e) (hs : e.isSymbol = true) :
    ∃ x ∈ f.inputs ++ seeds, x.2.id = e.id := by
  have hfit := h.store.holds e (h.store.graph.reachable h.output_mem he)
  rcases hfit.symbol hs with ⟨p, hp, rfl⟩ | ⟨p, hp, rfl⟩
  · exact ⟨p, List.mem_append_left _ hp, rfl⟩
  · exact ⟨p, List.mem_append_right _ hp, rfl⟩

/-- The operands of the nodes that the outputs can reach fit, and symbols among them are inputs. -/
theorem fits (h : Extension True R f n S seeds results) {e : Expr α}
    (he : Expr.Reachable ((f.outputs ++ results).map (·.2)) e) :
    e.checkOperands = .ok () ∧ (e.isSymbol = true → ∃ x ∈ f.inputs ++ seeds, x.2.id = e.id) :=
  ⟨((h.store.holds e (h.store.graph.reachable h.output_mem he)).check trivial).1, h.exists_input he⟩

/-- The extended function exists exactly when its names are different. -/
theorem exists_make (h : Extension True R f n S seeds results) {name : String} :
    (∃ g, Func.make name (f.inputs ++ seeds) (f.outputs ++ results) = .ok g) ↔
      ((f.inputs ++ seeds).map (·.1)).Nodup ∧ ((f.outputs ++ results).map (·.1)).Nodup := by
  rw [Func.exists_make_iff (h.store.graph.isDag h.output_mem)]
  constructor
  · rintro ⟨hnamed, -⟩
    exact ⟨hnamed.inputNames, hnamed.outputNames⟩
  · rintro ⟨hi, ho⟩
    exact ⟨⟨h.symbols, hi, h.nodup_inputIds, ho⟩, fun e he => h.fits he⟩

/-- Otherwise the failure is a name clash. -/
theorem nameClash (h : Extension True R f n S seeds results) {name : String} {err : Error}
    (herr : Func.make name (f.inputs ++ seeds) (f.outputs ++ results) = .error err) :
    Func.NameClash name err := by
  refine Func.nameClash_of_make_eq_error h.symbols h.nodup_inputIds ?_ herr
  refine (Tape.exists_compile (h.store.graph.isDag h.output_mem)).2 fun e he => ?_
  obtain ⟨hcheck, hsymbol⟩ := h.fits he
  refine ⟨hcheck, fun hs => ?_⟩
  obtain ⟨x, hx, hid⟩ := hsymbol hs
  exact ⟨x.2, List.mem_map_of_mem hx, hid⟩

/-- The extended function exists exactly when no tagged name is taken. -/
theorem exists_make_iff {word : String} {targets outcomes : List (String × Expr α)} {k : Nat}
    {rs : List (Added α)} (h : Extension True R f n S (rs.flatMap (·.1)) (rs.flatMap (·.2)))
    (hrs : Directed True S (directionTag word) targets outcomes (List.range k) rs)
    (ht : (targets.map (·.1)).Nodup) (ho : (outcomes.map (·.1)).Nodup) (name : String) :
    (∃ g, Func.make name (f.inputs ++ rs.flatMap (·.1)) (f.outputs ++ rs.flatMap (·.2)) = .ok g) ↔
      ∀ d < k, (∀ x ∈ targets.map (·.1), directionTag word d ++ x ∉ f.inputNames) ∧
        ∀ x ∈ outcomes.map (·.1), directionTag word d ++ x ∉ f.outputNames := by
  rw [h.exists_make, List.map_append, List.map_append, hrs.seedNames, hrs.resultNames,
    nodup_append_tagged f.named.inputNames ht, nodup_append_tagged f.named.outputNames ho]
  exact ⟨fun hnew d hd => ⟨hnew.1 d hd, hnew.2 d hd⟩,
    fun hnew => ⟨fun d hd => (hnew d hd).1, fun d hd => (hnew d hd).2⟩⟩

end Extension

/-! ## Arguments for the extended function -/

section Arguments

variable {rs : List (Added α)} {us : List (List (Argument α))}

/-- Arguments of the shapes of the targets have the shapes of their seeds. -/
theorem forall₂_shape_seeds {tag : String} {targets seeds : List (String × Expr α)}
    (hseeds : List.Forall₂ (IsSeed tag) targets seeds) {u : List (Argument α)}
    (hu : u.map (·.shape) = targets.map (·.2.shape)) :
    List.Forall₂ (fun p a => a.shape = p.2.shape) seeds u := by
  induction hseeds generalizing u with
  | nil =>
    rw [List.map_eq_nil_iff.1 hu]
    exact .nil
  | cons hseed _ ih =>
    cases u with
    | nil => cases hu
    | cons a u =>
      obtain ⟨ha, hu⟩ := List.cons.inj hu
      exact .cons (ha.trans hseed.shape.symm) (ih hu)

/-- The arguments for the seeds of each direction have the shapes of the seeds. -/
def FitSeeds (rs : List (Added α)) (us : List (List (Argument α))) : Prop :=
  List.Forall₂ (fun r u => u.map (·.shape) = r.1.map (·.2.shape)) rs us

/-- Arguments of the shapes of the targets, for as many directions as there are. -/
theorem fitSeeds_of_shapes {F : Prop} {S : Set (Expr α)} {tag : Nat → String}
    {targets results : List (String × Expr α)} {n : Nat}
    (h : Directed F S tag targets results (List.range n) rs)
    (hlen : us.length = n) (hus : ∀ u ∈ us, u.map (·.shape) = targets.map (·.2.shape)) :
    FitSeeds rs us := by
  refine List.forall₂_iff_zip.2 ⟨?_, fun {r u} hru => ?_⟩
  · rw [← h.length_eq, List.length_range, hlen]
  · obtain ⟨hr, hu⟩ := List.of_mem_zip hru
    obtain ⟨d, -, hseeds, -⟩ := Except.forall₂_exists_right h.flip r hr
    have hshapes := forall₂_shape_seeds hseeds (hus u hu)
    rw [← List.forall₂_eq_eq_eq, List.forall₂_map_left_iff, List.forall₂_map_right_iff]
    exact hshapes.flip

theorem FitSeeds.shapes (h : FitSeeds rs us) :
    us.flatten.map (·.shape) = (rs.flatMap (·.1)).map (·.2.shape) := by
  induction h with
  | nil => rfl
  | cons hr _ ih => rw [List.flatten_cons, List.map_append, hr, ih, List.flatMap_cons, List.map_append]

/-- The arguments of a direction stand in the places of its seeds. -/
theorem FitSeeds.mem_zip (h : FitSeeds rs us) {k : Nat} {r : Added α} {u : List (Argument α)}
    (hr : rs[k]? = some r) (hu : us[k]? = some u) {p : (String × Expr α) × Argument α}
    (hp : p ∈ r.1.zip u) : p ∈ (rs.flatMap (·.1)).zip us.flatten := by
  induction h generalizing k with
  | nil => cases hr
  | @cons r' u' rs us hshape _ ih =>
    have hlen : r'.1.length = u'.length := by
      rw [← List.length_map (·.2.shape), ← hshape, List.length_map]
    rw [List.flatMap_cons, List.flatten_cons, List.zip_append hlen, List.mem_append]
    cases k with
    | zero =>
      cases hr
      cases hu
      exact .inl hp
    | succ k => exact .inr (ih hr hu)

variable {f g : Func α} {seeds : List (String × Expr α)} {args u : List (Argument α)}

theorem FitSeeds.inputShapes (hi : g.inputs = f.inputs ++ rs.flatMap (·.1))
    (hargs : args.map (·.shape) = f.inputShapes) (h : FitSeeds rs us) :
    (args ++ us.flatten).map (·.shape) = g.inputShapes := by
  rw [List.map_append, hargs, h.shapes, Func.inputShapes, Func.inputShapes, hi, List.map_append]

variable (hi : g.inputs = f.inputs ++ seeds) (hargs : args.map (·.shape) = f.inputShapes)

include hi hargs

theorem zip_extended (u : List (Argument α)) :
    g.inputs.zip (args ++ u) = f.inputs.zip args ++ seeds.zip u := by
  rw [hi, List.zip_append (Func.length_of_shapes hargs).symm]

variable [Scalar α]

/-- The inputs of the function keep their values. -/
theorem binding_extended {e : Expr α} (he : e ∈ nodesOf f.inputs) (u : List (Argument α)) :
    g.binding (args ++ u) e.id = f.binding args e.id := by
  obtain ⟨p, hp, rfl⟩ := he
  obtain ⟨arg, hmem⟩ := exists_mem_zip (Func.length_of_shapes hargs).symm hp
  have hmem' : (p, arg) ∈ g.inputs.zip (args ++ u) := by
    rw [zip_extended hi hargs u]
    exact List.mem_append_left _ hmem
  exact (g.binding_of_mem_zip hmem').trans (f.binding_of_mem_zip hmem).symm

/-- The seeds have the further arguments as their values. -/
theorem binding_seed {p : (String × Expr α) × Argument α} (hp : p ∈ seeds.zip u) :
    g.binding (args ++ u) p.1.2.id = p.2.toDense := by
  refine g.binding_of_mem_zip ?_
  rw [zip_extended hi hargs u]
  exact List.mem_append_right _ hp

end Arguments

/-- The extended function has a value where the function has one, provided that the results of every
direction have values; these are then its additional outputs. -/
theorem Extension.exists_eval {K : Type} [Scalar K] {F : Prop} {R : Shape → Prop} {f g : Func K}
    {n m : Nat} {S : Set (Expr K)} {rs : List (Added K)} {us : List (List (Argument K))}
    {args : List (Argument K)} {values : List (Dense K)} {name : String} (hf : f.NumberedBelow m)
    (h : Extension F R f n S (rs.flatMap (·.1)) (rs.flatMap (·.2)))
    (hg : Func.make name (f.inputs ++ rs.flatMap (·.1)) (f.outputs ++ rs.flatMap (·.2)) = .ok g)
    (hv : f.eval args = .ok values) (hus : FitSeeds rs us)
    (hresults : ∀ (d : Nat) r u, rs[d]? = some r → us[d]? = some u → ∀ o ∈ r.2,
      ∃ v, o.2.value (g.binding (args ++ us.flatten)) = .ok v) :
    ∃ out, g.eval (args ++ us.flatten) = .ok out ∧
      ∀ (d : Nat) r, rs[d]? = some r → ∀ o ∈ r.2, ∀ v,
        o.2.value (g.binding (args ++ us.flatten)) = .ok v → g.output? out o.1 = some v := by
  obtain ⟨-, hi, ho⟩ := Func.make_eq_ok hg
  have hdag := (h.numberedBelow hg).isDag
  have hargs := Func.shapes_of_eval hv
  have henv : ∀ e ∈ nodesOf f.inputs, g.binding (args ++ us.flatten) e.id = f.binding args e.id :=
    fun e he => binding_extended hi hargs he us.flatten
  obtain ⟨out, hout⟩ := Func.exists_eval hdag (hus.inputShapes hi hargs) fun o hmem => by
    rw [ho] at hmem
    rcases List.mem_append.1 hmem with hmem | hmem
    · exact ⟨_, (hf.computes hv henv (f.reachable_output hmem)).value⟩
    · obtain ⟨r, hr, hmem⟩ := List.mem_flatMap.1 hmem
      obtain ⟨d, hd⟩ := List.mem_iff_getElem?.1 hr
      have hlt := (List.getElem?_eq_some_iff.1 hd).1
      rw [hus.length_eq] at hlt
      exact hresults d r _ hd (List.getElem?_eq_getElem hlt) o hmem
  refine ⟨out, hout, fun d r hr o hmem v hv => ?_⟩
  have hmem' : o ∈ g.outputs := by
    rw [ho]
    exact List.mem_append_right _ (List.mem_flatMap.2 ⟨r, List.mem_of_getElem? hr, hmem⟩)
  exact Func.output?_eq_some hdag hout hmem' hv

end Lyapunov
