import Mathlib.Data.List.Nodup
import Mathlib.Tactic.Lemma
import Requirements.Proofs.Program.Cycles

/-!
# Programs whose names hold together

The checks of the names accept a script exactly if no definition takes a reserved name, no two
definitions share a name, every reference leads to a definition, and no definition refers to itself,
be it through others. The order of the definitions plays no part in this.
-/

namespace Requirements

/-- The names of the definitions and the references among them and from the master expression hold
together. -/
structure WellNamed (definitions : List Definition) (master : Expr) : Prop where
  unreserved : ∀ d ∈ definitions, Platform.ofName? d.name = none
  nodup : (definitions.map Definition.name).Nodup
  bodies : ∀ d ∈ definitions, ∀ name ∈ d.body.references, name ∈ definitions.map Definition.name
  master : ∀ name ∈ master.references, name ∈ definitions.map Definition.name
  acyclic : (Resolver.graphOf definitions).Acyclic

namespace Resolver

/-! ### The graph of the references -/

/-- The names of the graph are those of the definitions. -/
@[simp] lemma names_graphOf (definitions : List Definition) :
    (graphOf definitions).names = definitions.map Definition.name := by
  simp [graphOf, Graph.names]

/-- With distinct names, a name refers to what the body of its definition refers to. -/
theorem refers_graphOf_iff {definitions : List Definition}
    (hnodup : (definitions.map Definition.name).Nodup) {a b : String} :
    (graphOf definitions).Refers a b ↔
      ∃ d ∈ definitions, d.name = a ∧ b ∈ d.body.references := by
  induction definitions with
  | nil => simp [Graph.Refers, Graph.targets, graphOf]
  | cons d rest ih =>
    rw [List.map_cons, List.nodup_cons] at hnodup
    have ih := ih hnodup.2
    simp only [Graph.Refers, Graph.targets, graphOf, List.map_cons, List.lookup_cons] at ih ⊢
    by_cases h : a = d.name
    · subst h
      have hrest : ∀ e ∈ rest, e.name ≠ d.name := by
        intro e he hname
        exact hnodup.1 (List.mem_map.mpr ⟨e, he, hname⟩)
      simp only [beq_self_eq_true, Option.getD_some, List.mem_cons, exists_eq_or_imp, true_and]
      refine ⟨.inl, ?_⟩
      rintro (h | ⟨e, he, hname, -⟩)
      · exact h
      · exact absurd hname (hrest e he)
    · have hne : (a == d.name) = false := by simpa using h
      rw [hne]
      simp only [List.mem_cons, exists_eq_or_imp]
      rw [ih]
      exact ⟨.inr, fun h' => h'.resolve_left fun h'' => h h''.1.symm⟩

/-! ### The checks -/

/-- The names are accepted if they are not reserved, distinct, and not among those before. -/
theorem checkNames_ok_iff {earlier definitions : List Definition} :
    checkNames earlier definitions = .ok () ↔
      (∀ d ∈ definitions, Platform.ofName? d.name = none) ∧
      (definitions.map Definition.name).Nodup ∧
      ∀ d ∈ definitions, d.name ∉ earlier.map Definition.name := by
  induction definitions generalizing earlier with
  | nil => simp [checkNames]
  | cons d rest ih =>
    rw [checkNames]
    by_cases hreserved : (Platform.ofName? d.name).isSome
    · rw [if_pos hreserved]
      simp only [reduceCtorEq, false_iff]
      intro h
      rw [h.1 d List.mem_cons_self] at hreserved
      cases hreserved
    · rw [if_neg hreserved]
      have hfree : Platform.ofName? d.name = none := by simpa using hreserved
      cases hfind : earlier.find? fun e => e.name == d.name with
      | some first =>
        simp only [reduceCtorEq, false_iff]
        intro h
        have hmem := List.mem_of_find?_eq_some hfind
        have hname : first.name = d.name := by simpa using List.find?_some hfind
        exact h.2.2 d List.mem_cons_self (List.mem_map.mpr ⟨first, hmem, hname⟩)
      | none =>
        have hnew : d.name ∉ earlier.map Definition.name := by simpa using hfind
        simp only [ih, List.mem_cons, forall_eq_or_imp, List.map_cons, List.nodup_cons,
          List.map_append, List.map_nil, List.mem_append, List.not_mem_nil, or_false, not_or]
        constructor
        · rintro ⟨hrest, hnodup, hdisjoint⟩
          refine ⟨⟨hfree, hrest⟩, ⟨?_, hnodup⟩, hnew, fun e he => (hdisjoint e he).1⟩
          intro hd
          obtain ⟨e, he, hname⟩ := List.mem_map.mp hd
          exact (hdisjoint e he).2 hname
        · rintro ⟨⟨-, hrest⟩, ⟨hd, hnodup⟩, -, hdisjoint⟩
          refine ⟨hrest, hnodup, fun e he => ⟨hdisjoint e he, fun hname => ?_⟩⟩
          exact hd (List.mem_map.mpr ⟨e, he, hname⟩)

/-- The references of one part pass the check exactly if they have definitions. -/
lemma checkReferences_ok_iff {names : List String} {place : Place} {e : Expr} :
    checkReferences names place e = .ok () ↔ ∀ name ∈ e.references, name ∈ names := by
  unfold checkReferences
  cases h : e.references.find? fun name => !names.contains name with
  | none => simpa using h
  | some name =>
    have hmem := List.mem_of_find?_eq_some h
    have hnot : name ∉ names := by simpa using List.find?_some h
    simp only [reduceCtorEq, false_iff, not_forall]
    exact ⟨name, hmem, hnot⟩

/-- What comes behind a check succeeds if the check does. -/
theorem seq_ok_iff {ε β : Type} {x : Except ε Unit} {y : Except ε β} {b : β} :
    (do x; y) = .ok b ↔ x = .ok () ∧ y = .ok b := by
  cases x <;> simp [bind, Except.bind]

/-- A check of every member of a list succeeds if each of them succeeds. -/
theorem forM_ok_iff {α ε : Type} {f : α → Except ε Unit} {l : List α} :
    l.forM f = .ok () ↔ ∀ a ∈ l, f a = .ok () := by
  induction l with
  | nil => simp [List.forM, pure, Except.pure]
  | cons a l ih => rw [List.forM, seq_ok_iff, ih, List.forall_mem_cons]

/-- The references pass the check exactly if those of all bodies and of the master have
definitions. -/
lemma checkAllReferences_ok_iff {definitions : List Definition} {master : Expr} :
    checkAllReferences definitions master = .ok () ↔
      (∀ d ∈ definitions, ∀ name ∈ d.body.references, name ∈ definitions.map Definition.name) ∧
      ∀ name ∈ master.references, name ∈ definitions.map Definition.name := by
  rw [checkAllReferences, seq_ok_iff, forM_ok_iff]
  simp only [checkReferences_ok_iff]

/-- With all references bound, the definitions pass the check for cycles exactly if there are
none. -/
lemma checkCycles_ok_iff {definitions : List Definition}
    (hclosed : (graphOf definitions).Closed) :
    checkCycles definitions = .ok () ↔ (graphOf definitions).Acyclic := by
  rw [← findCycle?_eq_none_iff hclosed, checkCycles]
  cases findCycle? (graphOf definitions) <;> simp

end Resolver

namespace WellNamed

variable {definitions : List Definition} {master : Expr}

/-- The references lead from definitions to definitions. -/
theorem closed (h : WellNamed definitions master) : (Resolver.graphOf definitions).Closed := by
  intro a b hab
  obtain ⟨d, hd, -, hb⟩ := (Resolver.refers_graphOf_iff h.nodup).mp hab
  rw [Resolver.names_graphOf]
  exact h.bodies d hd b hb

/-- The definitions can be put in an order in which each comes behind those that it refers to. -/
theorem exists_order (h : WellNamed definitions master) :
    ∃ order, (Resolver.graphOf definitions).Ordered order ∧
      order ⊆ definitions.map Definition.name ∧ definitions.map Definition.name ⊆ order ∧
      order.length ≤ definitions.length := by
  have hnone := (Resolver.findCycle?_eq_none_iff h.closed).mpr h.acyclic
  obtain ⟨order, hordered, hdefined, hall, hlength⟩ :=
    Resolver.exists_order_of_findCycle? h.closed hnone
  refine ⟨order, hordered, ?_, ?_, ?_⟩
  · rwa [Resolver.names_graphOf] at hdefined
  · rwa [Resolver.names_graphOf] at hall
  · simpa [Resolver.graphOf] using hlength

/-- Whether the names hold together depends only on which name refers to which. -/
theorem of_perm {definitions' : List Definition} {master' : Expr} (h : WellNamed definitions master)
    (hgraph : (Resolver.graphOf definitions').Perm (Resolver.graphOf definitions))
    (hmaster : master'.references = master.references) : WellNamed definitions' master' := by
  have hnames : (definitions'.map Definition.name).Perm (definitions.map Definition.name) := by
    have := hgraph.map Prod.fst
    simpa [Resolver.graphOf, Function.comp_def] using this
  have hmem {d' : Definition} (hd' : d' ∈ definitions') :
      ∃ d ∈ definitions, d.name = d'.name ∧ d.body.references = d'.body.references := by
    have : (d'.name, d'.body.references) ∈ Resolver.graphOf definitions :=
      hgraph.subset (List.mem_map.mpr ⟨d', hd', rfl⟩)
    obtain ⟨d, hd, heq⟩ := List.mem_map.mp this
    exact ⟨d, hd, (Prod.mk.injEq ..).mp heq⟩
  have hnodup : (definitions'.map Definition.name).Nodup := hnames.nodup_iff.mpr h.nodup
  refine ⟨?_, hnodup, ?_, ?_, ?_⟩
  · intro d' hd'
    obtain ⟨d, hd, hname, -⟩ := hmem hd'
    exact hname ▸ h.unreserved d hd
  · intro d' hd' name hn
    obtain ⟨d, hd, -, hrefs⟩ := hmem hd'
    exact hnames.mem_iff.mpr (h.bodies d hd name (hrefs ▸ hn))
  · intro name hn
    exact hnames.mem_iff.mpr (h.master name (hmaster ▸ hn))
  · intro a ha
    refine h.acyclic a (Relation.TransGen.mono (fun x y hxy => ?_) a a ha)
    rw [Resolver.refers_graphOf_iff hnodup] at hxy
    rw [Resolver.refers_graphOf_iff h.nodup]
    obtain ⟨d', hd', hname', hy⟩ := hxy
    obtain ⟨d, hd, hname, hrefs⟩ := hmem hd'
    exact ⟨d, hd, hname.trans hname', hrefs ▸ hy⟩

end WellNamed

/-- A script becomes a program exactly if its names hold together. -/
theorem Script.resolve_ok_iff {s : Script} {p : Program} :
    s.resolve = .ok p ↔ p = ⟨s.definitions, s.master.getD (.bool true)⟩ ∧
      WellNamed s.definitions (s.master.getD (.bool true)) := by
  have hresolve : s.resolve = .ok p ↔
      Resolver.checkNames [] s.definitions = .ok () ∧
      Resolver.checkAllReferences s.definitions (s.master.getD (.bool true)) = .ok () ∧
      Resolver.checkCycles s.definitions = .ok () ∧
      p = ⟨s.definitions, s.master.getD (.bool true)⟩ := by
    simp only [Script.resolve, Resolver.seq_ok_iff, pure, Except.pure, Except.ok.injEq]
    rw [eq_comm (a := p)]
  rw [hresolve, Resolver.checkNames_ok_iff, Resolver.checkAllReferences_ok_iff]
  constructor
  · rintro ⟨⟨hfree, hnodup, -⟩, ⟨hbodies, hmaster⟩, hcycles, rfl⟩
    have hclosed : (Resolver.graphOf s.definitions).Closed := by
      intro a b hab
      obtain ⟨d, hd, -, hb⟩ := (Resolver.refers_graphOf_iff hnodup).mp hab
      rw [Resolver.names_graphOf]
      exact hbodies d hd b hb
    exact ⟨rfl, hfree, hnodup, hbodies, hmaster, (Resolver.checkCycles_ok_iff hclosed).mp hcycles⟩
  · rintro ⟨rfl, h⟩
    exact ⟨⟨h.unreserved, h.nodup, by simp⟩, ⟨h.bodies, h.master⟩,
      (Resolver.checkCycles_ok_iff h.closed).mpr h.acyclic, rfl⟩

/-- A program is the script of its text with names that hold together. -/
theorem Program.compile_ok_iff {source : String} {p : Program} :
    Program.compile source = .ok p ↔ ∃ s, Script.parse source = .ok s ∧
      p = ⟨s.definitions, s.master.getD (.bool true)⟩ ∧ WellNamed p.definitions p.master := by
  unfold Program.compile
  cases Script.parse source with
  | error e => simp
  | ok s =>
    have hp : (p = ⟨s.definitions, s.master.getD (.bool true)⟩ ∧
        WellNamed p.definitions p.master) ↔ s.resolve = .ok p := by
      rw [Script.resolve_ok_iff]
      constructor
      · rintro ⟨rfl, h⟩
        exact ⟨rfl, h⟩
      · rintro ⟨rfl, h⟩
        exact ⟨rfl, h⟩
    simp only [Except.ok.injEq, exists_eq_left', hp]
    cases s.resolve with
    | error fault => simp
    | ok q => simp

end Requirements
