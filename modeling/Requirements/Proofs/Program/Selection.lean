import Mathlib.Tactic.Lemma
import Requirements.Program.Selection
import Requirements.Proofs.Expr.Prune
import Requirements.Proofs.Program.Names

/-!
# Selections of a program

A selection binds the names of its program, each to what the options leave of its body. The order of
dependency of the program is one of the selection, too.
-/

namespace Requirements

namespace Selection

/-- A list of bound names, the last one first, in which every name comes behind all names that the
body of its binding refers to. -/
def Ordered (s : Selection) : List String → Prop
  | [] => True
  | a :: rest =>
    (∃ b, s.find? a = some b ∧ ∀ e, b.body = some e → e.references ⊆ rest) ∧ s.Ordered rest

/-- What holds of following a name with one level more if it holds of following the references of
its body holds of every name in order, with as many levels as the order has names. It is shown for
the last name of the order first. -/
theorem Ordered.follow_induction {s : Selection} {order : List String} (hordered : s.Ordered order)
    {P : Nat → String → Prop}
    (hstep : ∀ levels name b, s.find? name = some b →
      (∀ e, b.body = some e → ∀ n ∈ e.references, P levels n) → P (levels + 1) name)
    {levels : Nat} (hlevels : order.length ≤ levels) {name : String} (hname : name ∈ order) :
    P levels name := by
  induction order generalizing levels name with
  | nil => exact absurd hname List.not_mem_nil
  | cons a rest ih =>
    obtain ⟨⟨b, hfind, hrefs⟩, hrest⟩ := hordered
    rw [List.length_cons] at hlevels
    rcases List.mem_cons.mp hname with rfl | hname
    · obtain ⟨levels, rfl⟩ : ∃ l, levels = l + 1 := ⟨levels - 1, by omega⟩
      refine hstep levels name b hfind fun e he n hn => ?_
      exact ih hrest (by omega) (hrefs e he hn)
    · exact ih hrest (by omega) hname

/-- The bodies of names in order refer to names in order. -/
theorem Ordered.references_subset {s : Selection} {order : List String} (h : s.Ordered order)
    {name : String} (hname : name ∈ order) {b : Binding} {e : Expr} (hfind : s.find? name = some b)
    (hbody : b.body = some e) : e.references ⊆ order := by
  induction order with
  | nil => exact absurd hname List.not_mem_nil
  | cons a rest ih =>
    obtain ⟨⟨b', hfind', hrefs⟩, hrest⟩ := h
    rcases List.mem_cons.mp hname with rfl | hname
    · obtain rfl := Option.some.inj (hfind.symm.trans hfind')
      exact List.subset_cons_of_subset name (hrefs e hbody)
    · exact List.subset_cons_of_subset a (ih hrest hname)

/-- The body of a name in order refers to names in order among which the name itself is not. -/
theorem Ordered.exists_behind {s : Selection} {order : List String} (h : s.Ordered order)
    {name : String} (hname : name ∈ order) {b : Binding} {e : Expr} (hfind : s.find? name = some b)
    (hbody : b.body = some e) : ∃ rest, s.Ordered rest ∧ name ∉ rest ∧ e.references ⊆ rest := by
  induction order with
  | nil => exact absurd hname List.not_mem_nil
  | cons a rest ih =>
    by_cases hmem : name ∈ rest
    · exact ih h.2 hmem
    · obtain rfl : name = a := (List.mem_cons.mp hname).resolve_right hmem
      obtain ⟨⟨b', hfind', hrefs⟩, hrest⟩ := h
      obtain rfl := Option.some.inj (hfind.symm.trans hfind')
      exact ⟨rest, hrest, hmem, hrefs e hbody⟩

/-- The body of a name in order refers to names in an order that is shorter. -/
lemma Ordered.exists_shorter {s : Selection} {order : List String} (h : s.Ordered order)
    {name : String} (hname : name ∈ order) {b : Binding} {e : Expr} (hfind : s.find? name = some b)
    (hbody : b.body = some e) :
    ∃ rest, s.Ordered rest ∧ rest.length < order.length ∧ e.references ⊆ rest := by
  induction order with
  | nil => exact absurd hname List.not_mem_nil
  | cons a rest ih =>
    obtain ⟨⟨b', hfind', hrefs⟩, hrest⟩ := h
    rcases List.mem_cons.mp hname with rfl | hname
    · obtain rfl := Option.some.inj (hfind.symm.trans hfind')
      exact ⟨rest, hrest, by simp, hrefs e hbody⟩
    · obtain ⟨rest', hrest', hlength, hsub⟩ := ih hrest hname
      exact ⟨rest', hrest', by rw [List.length_cons]; omega, hsub⟩

/-- A name in order is bound. -/
lemma Ordered.exists_find? {s : Selection} {order : List String} (h : s.Ordered order)
    {name : String} (hname : name ∈ order) : ∃ b, s.find? name = some b := by
  induction order with
  | nil => exact absurd hname List.not_mem_nil
  | cons a rest ih =>
    rcases List.mem_cons.mp hname with rfl | hname
    · exact h.1.imp fun b hb => hb.1
    · exact ih h.2 hname

end Selection

namespace Program

variable {p : Program} {words : List String} {s : Selection}

/-- A selection consists of the options, the bindings of all definitions, and the master
expression. -/
theorem select_eq (h : p.select words = .ok s) :
    s = ⟨optionSet words, p.definitions.map (Binding.ofDefinition (optionSet words)),
      p.master⟩ := by
  simp only [select] at h
  split at h
  · cases h
  · cases h
    rfl

/-- A defined name is bound to what the options leave of its definition. -/
theorem find?_select (hnodup : (p.definitions.map Definition.name).Nodup)
    (h : p.select words = .ok s) {d : Definition} (hd : d ∈ p.definitions) :
    s.find? d.name = some (Binding.ofDefinition (optionSet words) d) := by
  rw [select_eq h, Selection.find?]
  generalize p.definitions = definitions at hnodup hd
  clear h
  induction definitions with
  | nil => exact absurd hd List.not_mem_nil
  | cons c rest ih =>
    rw [List.map_cons, List.nodup_cons] at hnodup
    rw [List.map_cons, List.find?_cons]
    rcases List.mem_cons.mp hd with rfl | hd
    · simp [Binding.ofDefinition]
    · have hne : c.name ≠ d.name := fun hname =>
        hnodup.1 (List.mem_map.mpr ⟨d, hd, hname.symm⟩)
      have hfalse : ((Binding.ofDefinition (optionSet words) c).name == d.name) = false := by
        simpa [Binding.ofDefinition] using hne
      rw [hfalse]
      exact ih hnodup.2 hd

/-- Every bound name is the name of a definition. -/
theorem exists_definition_of_find? (h : p.select words = .ok s) {name : String} {b : Binding}
    (hfind : s.find? name = some b) :
    ∃ d ∈ p.definitions, d.name = name ∧ b = Binding.ofDefinition (optionSet words) d := by
  have hmem : b ∈ s.bindings := List.mem_of_find?_eq_some hfind
  rw [select_eq h] at hmem
  obtain ⟨d, hd, rfl⟩ := List.mem_map.mp hmem
  exact ⟨d, hd, by simpa [Binding.ofDefinition] using List.find?_some hfind, rfl⟩

/-- What the options leave of a definition refers only to what the definition refers to. -/
theorem references_ofDefinition_subset {options : List String} {d : Definition} {e : Expr}
    (h : (Binding.ofDefinition options d).body = some e) : e.references ⊆ d.body.references := by
  simp only [Binding.ofDefinition] at h
  split at h
  · exact Expr.references_prune_subset h
  · cases h
    exact List.Subset.refl _

/-- The definitions of a program can be put in an order that is one of each of its selections. -/
theorem exists_ordered_select (hnamed : WellNamed p.definitions p.master)
    (h : p.select words = .ok s) :
    ∃ order, s.Ordered order ∧ s.master.references ⊆ order ∧
      order.length ≤ s.bindings.length := by
  obtain ⟨order, hordered, hdefined, hall, hlength⟩ := hnamed.exists_order
  refine ⟨order, ?_, ?_, ?_⟩
  · clear hlength hall
    induction order with
    | nil => trivial
    | cons a rest ih =>
      rw [List.cons_subset] at hdefined
      refine ⟨?_, ih hordered.2.2 hdefined.2⟩
      obtain ⟨d, hd, rfl⟩ := List.mem_map.mp hdefined.1
      refine ⟨_, find?_select hnamed.nodup h hd, fun e he name hname => ?_⟩
      refine hordered.2.1 name ?_
      have hrefers : (Resolver.graphOf p.definitions).Refers d.name name :=
        (Resolver.refers_graphOf_iff hnamed.nodup).mpr
          ⟨d, hd, rfl, references_ofDefinition_subset he hname⟩
      exact hrefers
  · intro name hname
    rw [select_eq h] at hname
    exact hall (hnamed.master name hname)
  · rw [select_eq h]
    simpa using hlength

end Program

end Requirements
