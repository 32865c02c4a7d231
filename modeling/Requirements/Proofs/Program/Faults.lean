import Mathlib.Tactic.Lemma
import Requirements.Proofs.Grammar.Printing
import Requirements.Proofs.Program.Names
import Requirements.Proofs.Text.NameSet

/-!
# What is wrong with the names of a script

Three things can be wrong with the names of a script: a definition takes a name that is reserved or
taken, a reference leads nowhere, or a definition refers to itself, be it through others. A script
becomes a program exactly if none of them is. Otherwise the fault that is reported is of the first
kind that there is, and it is the first of its kind: the first definition with a bad name, the first
expression with a reference that leads nowhere, or a cycle of references.
-/

namespace Requirements

namespace Script

/-- What the master expression requires; a script without one requires nothing. -/
def required (s : Script) : Expr :=
  s.master.getD (.bool true)

end Script

namespace Resolver

/-! ### The three conditions -/

/-- No definition takes a reserved name, and no two definitions share a name. -/
structure Distinct (definitions : List Definition) : Prop where
  unreserved : ∀ d ∈ definitions, ∀ fact : Platform, d.name ≠ fact.name
  nodup : (definitions.map Definition.name).Nodup

/-- Every reference in the expression leads to a definition. -/
def Bound (definitions : List Definition) (e : Expr) : Prop :=
  ∀ name, .reference name ∈ e.nodes → ∃ d ∈ definitions, d.name = name

/-- Every reference in the definitions and in the master expression leads to a definition. -/
structure AllBound (definitions : List Definition) (master : Expr) : Prop where
  bodies : ∀ d ∈ definitions, Bound definitions d.body
  master : Bound definitions master

/-- There is a reference to `b` in the definition of `a`. -/
def Refers (definitions : List Definition) (a b : String) : Prop :=
  ∃ d ∈ definitions, d.name = a ∧ .reference b ∈ d.body.nodes

/-- No definition leads back to itself by its references. -/
def Acyclic (definitions : List Definition) : Prop :=
  ∀ name, ¬ Relation.TransGen (Refers definitions) name name

/-! ### The faults -/

/-- The fault is that of the first definition whose name is reserved or taken. -/
inductive NameFault (definitions : List Definition) : SemanticFault → Prop
  | reserved {before after : List Definition} {d : Definition} {fact : Platform} :
    definitions = before ++ d :: after → Distinct before → d.name = fact.name →
    NameFault definitions (.reserved d.name d.line)
  | duplicate {before after : List Definition} {d first : Definition} :
    definitions = before ++ d :: after → Distinct before → first ∈ before → first.name = d.name →
    NameFault definitions (.duplicate d.name first.line d.line)

/-- Of the names that the expression refers to and that are not defined, `name` is the least. -/
structure LeastUnbound (definitions : List Definition) (e : Expr) (name : String) : Prop where
  refers : .reference name ∈ e.nodes
  undefined : ∀ d ∈ definitions, d.name ≠ name
  least : ∀ other, .reference other ∈ e.nodes → (∀ d ∈ definitions, d.name ≠ other) → name ≤ other

/-- The fault is that of the first expression with a reference that leads nowhere. The master
expression comes behind the definitions. -/
inductive ReferenceFault (definitions : List Definition) (master : Expr) : SemanticFault → Prop
  | body {before after : List Definition} {d : Definition} {name : String} :
    definitions = before ++ d :: after → (∀ c ∈ before, Bound definitions c.body) →
    LeastUnbound definitions d.body name →
    ReferenceFault definitions master (.undefined name (.definition d.name)
      (Text.closest? name (definitions.map Definition.name)))
  | master {name : String} :
    (∀ d ∈ definitions, Bound definitions d.body) → LeastUnbound definitions master name →
    ReferenceFault definitions master (.undefined name .master
      (Text.closest? name (definitions.map Definition.name)))

/-- The fault shows a cycle of references, at the line of its first definition. -/
inductive CycleFault (definitions : List Definition) : SemanticFault → Prop
  | cycle {d : Definition} {path : List String} :
    d ∈ definitions → path.head? = some d.name → IsCycle (Refers definitions) path →
    CycleFault definitions (.cycle path d.line)

end Resolver

namespace Expr

/-- The references of an expression are those among its parts. -/
theorem mem_references_iff {name : String} {e : Expr} :
    name ∈ e.references ↔ .reference name ∈ e.nodes := by
  rw [references, Text.mem_nameSet, List.mem_filterMap]
  constructor
  · rintro ⟨n, hn, hname⟩
    cases n with
    | reference other =>
      obtain rfl : other = name := by simpa [referenceName?] using hname
      exact hn
    | _ => cases hname
  · intro hn
    exact ⟨.reference name, hn, rfl⟩

end Expr

namespace Resolver

variable {definitions : List Definition} {master e : Expr}

/-! ### The checks decide the conditions -/

/-- Bound expressions refer to defined names only. -/
lemma bound_iff :
    Bound definitions e ↔ ∀ name ∈ e.references, name ∈ definitions.map Definition.name := by
  simp only [Bound, Expr.mem_references_iff, List.mem_map]

/-- With distinct names, the graph of the references is that of the references in the bodies. -/
theorem refers_graphOf (hnodup : (definitions.map Definition.name).Nodup) :
    (graphOf definitions).Refers = Refers definitions := by
  funext a b
  simp only [refers_graphOf_iff hnodup, Refers, Expr.mem_references_iff]

/-- A name is not reserved if it is no platform constant's. -/
lemma unreserved_iff {d : Definition} :
    Platform.ofName? d.name = none ↔ ∀ fact : Platform, d.name ≠ fact.name := by
  simp only [Option.eq_none_iff_forall_ne_some, ne_eq, Platform.ofName?_eq_some_iff]

/-- The names pass the check exactly if they are distinct and none is reserved. -/
lemma checkNames_ok_iff_distinct :
    checkNames [] definitions = .ok () ↔ Distinct definitions := by
  rw [checkNames_ok_iff]
  constructor
  · rintro ⟨hfree, hnodup, -⟩
    exact ⟨fun d hd => unreserved_iff.mp (hfree d hd), hnodup⟩
  · rintro ⟨hfree, hnodup⟩
    exact ⟨fun d hd => unreserved_iff.mpr (hfree d hd), hnodup, by simp⟩

/-- The references pass the check exactly if all of them are bound. -/
lemma checkAllReferences_ok_iff_allBound :
    checkAllReferences definitions master = .ok () ↔ AllBound definitions master := by
  rw [checkAllReferences_ok_iff]
  constructor
  · rintro ⟨hbodies, hmaster⟩
    exact ⟨fun d hd => bound_iff.mpr (hbodies d hd), bound_iff.mpr hmaster⟩
  · rintro ⟨hbodies, hmaster⟩
    exact ⟨fun d hd => bound_iff.mp (hbodies d hd), bound_iff.mp hmaster⟩

/-- The names hold together exactly if the three conditions are met. -/
theorem wellNamed_iff : WellNamed definitions master ↔
    Distinct definitions ∧ AllBound definitions master ∧ Acyclic definitions := by
  constructor
  · intro h
    refine ⟨⟨fun d hd => unreserved_iff.mp (h.unreserved d hd), h.nodup⟩,
      ⟨fun d hd => bound_iff.mpr (h.bodies d hd), bound_iff.mpr h.master⟩, ?_⟩
    have hacyclic := h.acyclic
    rwa [Graph.Acyclic, refers_graphOf h.nodup] at hacyclic
  · rintro ⟨⟨hfree, hnodup⟩, ⟨hbodies, hmaster⟩, hacyclic⟩
    refine ⟨fun d hd => unreserved_iff.mpr (hfree d hd), hnodup,
      fun d hd => bound_iff.mp (hbodies d hd), bound_iff.mp hmaster, ?_⟩
    rwa [Graph.Acyclic, refers_graphOf hnodup]

/-! ### The reported faults -/

/-- The first name that is refused is reserved or taken by one of the names before it. -/
theorem nameFault_of_checkNames {earlier : List Definition} {fault : SemanticFault}
    (h : checkNames earlier definitions = .error fault) (hearlier : Distinct earlier) :
    NameFault (earlier ++ definitions) fault := by
  induction definitions generalizing earlier with
  | nil => cases h
  | cons d rest ih =>
    rw [checkNames] at h
    cases hname : Platform.ofName? d.name with
    | some fact =>
      rw [hname, Option.isSome_some, if_pos rfl] at h
      cases h
      exact .reserved rfl hearlier (Platform.ofName?_eq_some_iff.mp hname)
    | none =>
      rw [hname, Option.isSome_none, if_neg Bool.false_ne_true] at h
      cases hfind : earlier.find? fun e => e.name == d.name with
      | some first =>
        rw [hfind] at h
        cases h
        exact .duplicate rfl hearlier (List.mem_of_find?_eq_some hfind)
          (by simpa using List.find?_some hfind)
      | none =>
        rw [hfind] at h
        have hnew : ∀ c ∈ earlier, c.name ≠ d.name := by simpa using hfind
        have hnext : Distinct (earlier ++ [d]) := by
          constructor
          · intro c hc fact hfact
            rcases List.mem_append.mp hc with hc | hc
            · exact hearlier.unreserved c hc fact hfact
            · obtain rfl := List.mem_singleton.mp hc
              rw [Platform.ofName?_eq_some_iff.mpr hfact] at hname
              cases hname
          · rw [List.map_append, List.nodup_append]
            refine ⟨hearlier.nodup, List.nodup_singleton d.name, ?_⟩
            simpa using hnew
        have hfault := ih h hnext
        rwa [List.append_assoc, List.singleton_append] at hfault

/-- The reference of an expression that is refused is the least of those that lead nowhere. -/
theorem leastUnbound_of_checkReferences {place : Place} {fault : SemanticFault}
    (h : checkReferences (definitions.map Definition.name) place e = .error fault) :
    ∃ name, LeastUnbound definitions e name ∧
      fault = .undefined name place (Text.closest? name (definitions.map Definition.name)) := by
  have hmissing {name : String} : (!(definitions.map Definition.name).contains name) = true ↔
      ∀ d ∈ definitions, d.name ≠ name := by simp
  unfold checkReferences at h
  cases hfind : e.references.find? fun name => !(definitions.map Definition.name).contains name with
  | none =>
    rw [hfind] at h
    cases h
  | some name =>
    rw [hfind] at h
    cases h
    obtain ⟨hname, front, back, hsplit, hfront⟩ := List.find?_eq_some_iff_append.mp hfind
    refine ⟨name, ⟨?_, hmissing.mp hname, fun other hother hundefined => ?_⟩, rfl⟩
    · exact Expr.mem_references_iff.mp (List.mem_of_find?_eq_some hfind)
    · -- The references are in increasing order, and those in front of `name` are defined.
      have hsorted := Text.pairwise_nameSet (e.nodes.filterMap Expr.referenceName?)
      rw [← Expr.references, hsplit, List.pairwise_append] at hsorted
      have hmem : other ∈ front ++ name :: back := hsplit ▸ Expr.mem_references_iff.mpr hother
      rcases List.mem_append.mp hmem with hmem | hmem
      · have hdefined := hfront other hmem
        rw [hmissing.mpr hundefined] at hdefined
        cases hdefined
      · rcases List.mem_cons.mp hmem with rfl | hmem
        · exact String.le_refl other
        · have hlt := (List.pairwise_cons.mp hsorted.2.1).1 other hmem
          exact String.not_lt.mp (String.lt_asymm hlt)

/-- A sequence of a check and another computation fails if one of them does. -/
theorem seq_error_iff {ε β : Type} {x : Except ε Unit} {y : Except ε β} {err : ε} :
    (do x; y) = .error err ↔ x = .error err ∨ x = .ok () ∧ y = .error err := by
  cases x <;> simp [bind, Except.bind]

/-- The check of the members of a list fails at the first of them for which it fails. -/
theorem exists_of_forM_error {α ε : Type} {f : α → Except ε Unit} {l : List α} {err : ε}
    (h : l.forM f = .error err) :
    ∃ before a after, l = before ++ a :: after ∧ (∀ b ∈ before, f b = .ok ()) ∧
      f a = .error err := by
  induction l with
  | nil => cases h
  | cons a l ih =>
    rw [List.forM] at h
    rcases seq_error_iff.mp h with h | ⟨hfirst, h⟩
    · exact ⟨[], a, l, rfl, by simp, h⟩
    · obtain ⟨before, b, after, rfl, hbefore, hb⟩ := ih h
      exact ⟨a :: before, b, after, rfl, List.forall_mem_cons.mpr ⟨hfirst, hbefore⟩, hb⟩

/-- The fault of the references is at the first unbound one. -/
lemma referenceFault_of_checkAllReferences {fault : SemanticFault}
    (h : checkAllReferences definitions master = .error fault) :
    ReferenceFault definitions master fault := by
  have hbound {place : Place} {e : Expr}
      (h : checkReferences (definitions.map Definition.name) place e = .ok ()) :
      Bound definitions e := bound_iff.mpr (checkReferences_ok_iff.mp h)
  rw [checkAllReferences] at h
  rcases seq_error_iff.mp h with h | ⟨hbodies, h⟩
  · obtain ⟨before, d, after, hsplit, hbefore, h⟩ := exists_of_forM_error h
    obtain ⟨name, hleast, rfl⟩ := leastUnbound_of_checkReferences h
    exact .body hsplit (fun c hc => hbound (hbefore c hc)) hleast
  · obtain ⟨name, hleast, rfl⟩ := leastUnbound_of_checkReferences h
    exact .master (fun d hd => hbound (forM_ok_iff.mp hbodies d hd)) hleast

/-- The first name of a cycle of references is defined. -/
theorem exists_definition_of_isCycle {path : List String} (h : IsCycle (Refers definitions) path) :
    ∃ d ∈ definitions, path.head? = some d.name := by
  obtain ⟨first, next, hhead, ⟨d, hd, rfl, -⟩, -⟩ := h.exists_next
  exact ⟨d, hd, hhead⟩

/-- With distinct names, the cycle that is found is one of references between definitions. -/
theorem cycleFault_of_checkCycles {fault : SemanticFault}
    (hnodup : (definitions.map Definition.name).Nodup)
    (h : checkCycles definitions = .error fault) : CycleFault definitions fault := by
  unfold checkCycles at h
  cases hfind : findCycle? (graphOf definitions) with
  | none =>
    rw [hfind] at h
    cases h
  | some path =>
    rw [hfind] at h
    cases h
    have hcycle := isCycle_of_findCycle? hfind
    rw [refers_graphOf hnodup] at hcycle
    obtain ⟨d, hd, hhead⟩ := exists_definition_of_isCycle hcycle
    obtain ⟨c, hc⟩ : ∃ c, definitions.find? (fun c => c.name == d.name) = some c :=
      Option.isSome_iff_exists.mp (List.find?_isSome.mpr ⟨d, hd, beq_self_eq_true d.name⟩)
    have hname : c.name = d.name := by simpa using List.find?_some hc
    have hfirst : path.headD "" = d.name := by
      rw [List.headD_eq_head?_getD, hhead, Option.getD_some]
    rw [hfirst, hc, Option.map_some, Option.getD_some]
    exact .cycle (List.mem_of_find?_eq_some hc) (hname ▸ hhead) hcycle

/-- A cycle is reported only if there is one. -/
theorem CycleFault.not_acyclic {fault : SemanticFault} (h : CycleFault definitions fault) :
    ¬ Acyclic definitions := by
  obtain ⟨-, -, hcycle⟩ := h
  obtain ⟨name, hname⟩ := hcycle.exists_transGen
  exact fun hacyclic => hacyclic name hname

end Resolver

namespace Script

/-- A script becomes a program exactly if its names are free and distinct, every reference leads to
a definition, and no references lead in a circle. Otherwise the fault is one of the first of the
three conditions that is not met; a circle is shown from its first name back to it. -/
theorem resolve_reports_first_fault (s : Script) :
    ((∃ p, s.resolve = .ok p) ↔ Resolver.Distinct s.definitions ∧
        Resolver.AllBound s.definitions s.required ∧ Resolver.Acyclic s.definitions) ∧
      ∀ fault, s.resolve = .error fault →
        (¬ Resolver.Distinct s.definitions ∧ Resolver.NameFault s.definitions fault) ∨
        (Resolver.Distinct s.definitions ∧ ¬ Resolver.AllBound s.definitions s.required ∧
          Resolver.ReferenceFault s.definitions s.required fault) ∨
        (Resolver.Distinct s.definitions ∧ Resolver.AllBound s.definitions s.required ∧
          ¬ Resolver.Acyclic s.definitions ∧ Resolver.CycleFault s.definitions fault) := by
  constructor
  · simp only [resolve_ok_iff, exists_and_right, exists_eq, true_and]
    exact Resolver.wellNamed_iff
  · intro fault h
    rw [resolve] at h
    rcases Resolver.seq_error_iff.mp h with hnames | ⟨hnames, h⟩
    · refine .inl ⟨fun hdistinct => ?_, ?_⟩
      · cases (Resolver.checkNames_ok_iff_distinct.mpr hdistinct).symm.trans hnames
      · exact Resolver.nameFault_of_checkNames hnames ⟨by simp, List.nodup_nil⟩
    · have hdistinct := Resolver.checkNames_ok_iff_distinct.mp hnames
      rcases Resolver.seq_error_iff.mp h with hrefs | ⟨hrefs, h⟩
      · refine .inr (.inl ⟨hdistinct, fun hbound => ?_, ?_⟩)
        · cases (Resolver.checkAllReferences_ok_iff_allBound.mpr hbound).symm.trans hrefs
        · exact Resolver.referenceFault_of_checkAllReferences hrefs
      · have hbound := Resolver.checkAllReferences_ok_iff_allBound.mp hrefs
        rcases Resolver.seq_error_iff.mp h with hcycles | ⟨-, h⟩
        · have hfault := Resolver.cycleFault_of_checkCycles hdistinct.nodup hcycles
          exact .inr (.inr ⟨hdistinct, hbound, hfault.not_acyclic, hfault⟩)
        · cases h

/-- The search starts at `a`, but the cycle that it meets does not lead through `a`. -/
example :
    let refersTo (name target : String) (line : Nat) : Definition :=
      ⟨.plain, name, .reference target, line⟩
    resolve ⟨[refersTo "a" "b" 1, refersTo "b" "c" 2, refersTo "c" "b" 3], none⟩ =
      .error (.cycle ["b", "c", "b"] 2) := by
  decide

end Script

end Requirements
