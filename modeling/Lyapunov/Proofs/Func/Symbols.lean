/-
Functions with one output that is built from new symbols. What the output is read as decides which
functions exist and what they compute: as a node whose operands fit it makes a function, and read by values
it gives the value of the function.
-/
import Lyapunov.Proofs.Expr.Reading
import Lyapunov.Proofs.Func.Nodes

namespace Lyapunov

open Build

/-- Symbols that can be the inputs of a function, with numbers below `n`. -/
structure Declared {α : Type} (symbols : List (String × Expr α)) (n : Nat) : Prop where
  symbol : ∀ p ∈ symbols, p.2.isSymbol = true
  names : (symbols.map (·.1)).Nodup
  ids : (symbols.map (·.2.id)).Nodup
  below : ∀ p ∈ symbols, p.2.id < n

theorem Declared.nil {α : Type} (n : Nat) : Declared ([] : List (String × Expr α)) n :=
  ⟨by simp, .nil, .nil, by simp⟩

/-- One more symbol under another name. -/
theorem Declared.snoc {α : Type} {symbols : List (String × Expr α)} {n : Nat} (h : Declared symbols n)
    (name label : String) (s : Shape) (hname : name ∉ symbols.map (·.1)) :
    Declared (symbols ++ [(name, .symbol n label s)]) (n + 1) where
  symbol := by
    rw [List.forall_mem_append, List.forall_mem_singleton]
    exact ⟨h.symbol, rfl⟩
  names := by
    rw [List.map_append, List.map_singleton, List.nodup_append_comm, List.singleton_append, List.nodup_cons]
    exact ⟨hname, h.names⟩
  ids := by
    rw [List.map_append, List.map_singleton, List.nodup_append_comm, List.singleton_append, List.nodup_cons]
    refine ⟨fun hid => ?_, h.ids⟩
    obtain ⟨p, hp, hid⟩ := List.mem_map.1 hid
    exact (h.below p hp).ne hid
  below := by
    rw [List.forall_mem_append, List.forall_mem_singleton]
    exact ⟨fun p hp => (h.below p hp).trans (Nat.lt_succ_self n), Nat.lt_succ_self n⟩

theorem Declared.store {α : Type} {symbols : List (String × Expr α)} {n : Nat} (h : Declared symbols n)
    {P : Expr α → Prop} (hP : ∀ e ∈ nodesOf symbols, P e) : Store P n (nodesOf symbols) where
  graph := by
    refine ⟨fun e he x hx => ?_, fun x hx y hy hid => ?_⟩
    · obtain ⟨p, hp, rfl⟩ := he
      rw [Expr.operands_of_isSymbol (h.symbol p hp)] at hx
      cases hx
    · obtain ⟨p, hp, rfl⟩ := hx
      obtain ⟨q, hq, rfl⟩ := hy
      rw [List.inj_on_of_nodup_map h.ids hp hq hid]
  below e he := by
    obtain ⟨p, hp, rfl⟩ := he
    exact h.below p hp
  holds := hP

theorem forall₂_of_map_eq {β γ δ : Type} {f : β → δ} {g : γ → δ} {bs : List β} {cs : List γ}
    (h : bs.map f = cs.map g) : List.Forall₂ (fun c b => g c = f b) cs bs := by
  rwa [eq_comm, ← List.forall₂_eq_eq_eq, List.forall₂_map_left_iff, List.forall₂_map_right_iff] at h

/-- Symbols are read by their shapes. -/
theorem Declared.forall₂_formedAs {α : Type} {symbols : List (String × Expr α)} {n : Nat}
    (h : Declared symbols n) (ds : List (Dense α)) (hds : ds.map (·.shape) = symbols.map (·.2.shape)) :
    List.Forall₂ (fun p d => p.2.FormedAs (nodesOf symbols) d) symbols ds := by
  refine List.forall₂_iff_zip.2 ⟨?_, fun {p d} hpd => ?_⟩
  · simpa using (congrArg List.length hds).symm
  · have hp := (List.of_mem_zip hpd).1
    exact ⟨List.forall₂_zip (forall₂_of_map_eq hds) hpd, Expr.formed_of_isSymbol (h.symbol p hp) ⟨p, hp, rfl⟩⟩

/-- A function of the symbols with one output, which is built by `m` from the node with number `n` on. -/
structure Func.BuiltBy {α : Type} (f : Func α) (symbols : List (String × Expr α)) (output : String)
    (m : Build (Expr α)) (n : Nat) : Prop where
  declared : Declared symbols n
  inputs : f.inputs = symbols
  outputs : f.outputs = [(output, (m.run n).1)]
  numbered : f.NumberedBelow (m.run n).2

/-- What holds of the symbols and of the nodes that are built holds of the nodes of the function. -/
theorem Declared.builtBy {α : Type} {symbols : List (String × Expr α)} {n : Nat} (h : Declared symbols n)
    {P : Expr α → Prop} (hP : ∀ e ∈ nodesOf symbols, P e) {m : Build (Expr α)} {Q : Expr α → Prop}
    (hm : Grows P (nodesOf symbols) m fun S y => y ∈ S ∧ Q y) {name output : String} {f : Func α}
    (hf : Func.make name symbols [(output, (m.run n).1)] = .ok f) :
    f.BuiltBy symbols output m n ∧ (∀ e ∈ f.nodes, P e) ∧ Q (m.run n).1 := by
  obtain ⟨S, hS, hstore, hy, hQ⟩ := hm n (h.store hP)
  obtain ⟨-, hi, ho⟩ := Func.make_eq_ok hf
  have hall : ∀ r ∈ f.inputs.map (·.2) ++ f.outputs.map (·.2), r ∈ S := by
    intro r hr
    rw [hi, ho] at hr
    rcases List.mem_append.1 hr with hr | hr
    · obtain ⟨p, hp, rfl⟩ := List.mem_map.1 hr
      exact hS ⟨p, hp, rfl⟩
    · rw [List.map_singleton, List.mem_singleton] at hr
      exact hr ▸ hy
  exact ⟨⟨h, hi, ho, hstore.graph.isDag hall, fun e he => hstore.below e (hstore.graph.reachable hall he)⟩,
    fun e he => hstore.holds e (hstore.graph.reachable hall he), hQ⟩

/-- An output whose nodes fit makes a function. -/
theorem Declared.exists_make {α : Type} {symbols : List (String × Expr α)} {n : Nat} (h : Declared symbols n)
    {P : Expr α → Prop} (hP : ∀ e ∈ nodesOf symbols, P e)
    (hfits : ∀ e, P e → e.checkOperands = .ok () ∧ (e.isSymbol = true → e ∈ nodesOf symbols))
    {m : Build (Expr α)} {Q : Expr α → Prop} (hm : Grows P (nodesOf symbols) m fun S y => y ∈ S ∧ Q y)
    (name output : String) : ∃ f, Func.make name symbols [(output, (m.run n).1)] = .ok f := by
  obtain ⟨S, -, hstore, hy, -⟩ := hm n (h.store hP)
  have hroots : ∀ r ∈ [(output, (m.run n).1)].map (·.2), r ∈ S := by
    rintro r hr
    rw [List.map_singleton, List.mem_singleton] at hr
    exact hr ▸ hy
  have hnamed : Func.Named symbols [(output, (m.run n).1)] := ⟨h.symbol, h.names, h.ids, List.nodup_singleton _⟩
  refine (Func.exists_make_iff (hstore.graph.isDag hroots)).2 ⟨hnamed, fun e he => ?_⟩
  obtain ⟨hcheck, hsymbol⟩ := hfits e (hstore.holds e (hstore.graph.reachable hroots he))
  refine ⟨hcheck, fun hs => ?_⟩
  obtain ⟨p, hp, hpe⟩ := hsymbol hs
  exact ⟨p, hp, congrArg Expr.id hpe⟩

/-- An output that is read by its shape makes a function of which every derivative exists. -/
theorem Declared.exists_make_of_formedAs {K : Type} [Zero K] {symbols : List (String × Expr K)} {n : Nat}
    (h : Declared symbols n) {m : Build (Expr K)} {d : Dense K}
    (hm : Grows (Readable (Expr.FormedAs (nodesOf symbols))) (nodesOf symbols) m
      (Reads (Expr.FormedAs (nodesOf symbols)) d))
    (name output : String) :
    (m.run n).1.shape = d.shape ∧
      ∃ f, Func.make name symbols [(output, (m.run n).1)] = .ok f ∧ f.BuiltBy symbols output m n ∧
        ∀ e ∈ f.nodes, e.Contractible := by
  have hsymbols : ∀ e ∈ nodesOf symbols, Readable (Expr.FormedAs (nodesOf symbols)) e := by
    rintro e ⟨p, hp, rfl⟩
    exact ⟨.zero p.2.shape, rfl, Expr.formed_of_isSymbol (h.symbol p hp) ⟨p, hp, rfl⟩⟩
  have hgrows := hm.imp (R := fun S y => y ∈ S ∧ y.shape = d.shape) fun S y _ hy => ⟨hy.mem, hy.reads.shape⟩
  obtain ⟨f, hf⟩ := h.exists_make hsymbols (fun e ⟨_, _, he⟩ => ⟨he.check, he.symbol⟩) hgrows name output
  obtain ⟨hbuilt, hformed, hshape⟩ := h.builtBy hsymbols hgrows hf
  refine ⟨hshape, f, hf, hbuilt, fun e he => ?_⟩
  obtain ⟨_, -, he⟩ := hformed e he
  exact he.contractible

/-! ## Values -/

namespace Func.BuiltBy

section

variable {α : Type} [Scalar α] {symbols : List (String × Expr α)} {n : Nat} {m : Build (Expr α)} {f : Func α}
  {output : String} {args : List (Argument α)}

/-- The symbols are bound to the arguments. -/
theorem forall₂_binding (h : f.BuiltBy symbols output m n)
    (hargs : args.map (·.shape) = symbols.map (·.2.shape)) :
    List.Forall₂ (fun p x => p.2.isSymbol = true ∧ p.2.shape = x.toDense.shape ∧
      f.binding args p.2.id = x.toDense) symbols args := by
  refine List.forall₂_iff_zip.2 ⟨?_, fun {p x} hpx => ?_⟩
  · simpa using (congrArg List.length hargs).symm
  · have hshape := List.forall₂_zip (forall₂_of_map_eq hargs) hpx
    exact ⟨h.declared.symbol p (List.of_mem_zip hpx).1, hshape.trans x.shape_toDense.symm,
      f.binding_of_mem_zip (p := (p, x)) (h.inputs ▸ hpx)⟩

/-- The symbols have the arguments as their values. -/
theorem forall₂_computes (h : f.BuiltBy symbols output m n)
    (hargs : args.map (·.shape) = symbols.map (·.2.shape)) :
    List.Forall₂ (fun p d => p.2.Computes (f.binding args) d) symbols (args.map (·.toDense)) :=
  List.forall₂_map_right_iff.2 ((h.forall₂_binding hargs).imp fun _ _ ⟨hs, hshape, hb⟩ =>
    ⟨(Expr.value_of_isSymbol _ hs).trans (congrArg Except.ok hb), hshape⟩)

variable (h : f.BuiltBy symbols output m n) (hargs : args.map (·.shape) = symbols.map (·.2.shape))

include h hargs

omit [Scalar α] in
theorem shapes : args.map (·.shape) = f.inputShapes := by
  rw [hargs, inputShapes, h.inputs]

theorem computes_symbols : ∀ e ∈ nodesOf symbols, ∃ d, e.Computes (f.binding args) d := by
  rintro e ⟨p, hp, rfl⟩
  obtain ⟨d, -, hd⟩ := Except.forall₂_exists_right (h.forall₂_computes hargs) p hp
  exact ⟨d, hd⟩

end

variable {K : Type} [ExactScalar K] {symbols : List (String × Expr K)} {n : Nat} {m : Build (Expr K)}
  {f : Func K} {output : String} {args : List (Argument K)} (h : f.BuiltBy symbols output m n)
  (hargs : args.map (·.shape) = symbols.map (·.2.shape))

include h hargs

/-- What the output is read as is the value of the function. -/
theorem eval_eq_ok {d : Dense K} (hm : Grows (Readable (Expr.Computes (f.binding args))) (nodesOf symbols) m
      (Reads (Expr.Computes (f.binding args)) d)) :
    f.eval args = .ok [d] := by
  obtain ⟨S, -, -, hy⟩ := hm n (h.declared.store (h.computes_symbols hargs))
  have ho := h.outputs
  refine (Func.eval_eq_ok h.numbered.isDag (h.shapes hargs)).2 ?_
  rw [ho]
  exact .cons hy.reads.value .nil

/-- The function fails with the error that nodes fail with, if there is one that fails. -/
theorem eval_eq_error {err : Error} {d : Dense K} {Q : Expr K → Prop}
    (hm : Grows (Readable (Expr.ComputesOr (f.binding args) err)) (nodesOf symbols) m fun S y =>
      Reads (Expr.ComputesOr (f.binding args) err) d S y ∧ Q y)
    (hQ : ∀ y, Q y → ∃ x, Expr.Below x y ∧ x.value (f.binding args) = .error err) :
    f.eval args = .error err := by
  obtain ⟨S, -, hstore, hy, hQy⟩ := hm n (h.declared.store fun e he => by
    obtain ⟨a, ha⟩ := h.computes_symbols hargs e he
    exact ⟨a, ha.shape, .inl ha.value⟩)
  have ho := h.outputs
  have hroots : ∀ r ∈ f.outputs.map (·.2), r ∈ S := by
    rw [ho]
    intro r hr
    rw [List.map_singleton, List.mem_singleton] at hr
    exact hr ▸ hy.mem
  obtain ⟨x, hxy, hx⟩ := hQ _ hQy
  refine Func.eval_eq_error h.numbered.isDag (h.shapes hargs) (fun e he => ?_) ⟨_, ?_, hxy⟩ hx
  · obtain ⟨a, ha⟩ := hstore.holds e (hstore.graph.reachable hroots he)
    exact ha.value.imp_left fun hv => ⟨a, hv⟩
  · rw [ho]
    exact List.mem_singleton_self _

end Func.BuiltBy

end Lyapunov
