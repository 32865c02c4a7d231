import Mathlib.Tactic.Lemma
import Requirements.Environment.Registry
import Requirements.Proofs.Evaluation.Errors
import Requirements.Proofs.Program.Faults
import Requirements.Proofs.Text.NameSet
import Requirements.Report.Builder

/-!
# The order of definitions, and definitions that nothing refers to

Definitions are found by their names, so it does not matter in which order a script gives them: the
same scripts are accepted, and their programs are evaluated alike. Nor does it matter whether there
is one more definition, if nothing refers to it and its own names hold together.
-/

namespace Requirements

/-! ### What definitions say -/

namespace Definition

/-- What a definition says. The line on which it stands is no part of it. -/
def statement (d : Definition) : DefinitionKind × String × Expr :=
  (d.kind, d.name, d.body)

variable {d d' : Definition}

/-- The same statement gives the same name. -/
lemma name_eq_of_statement_eq (h : d'.statement = d.statement) : d'.name = d.name :=
  congrArg (fun x => x.2.1) h

/-- The same statement has the same body. -/
lemma body_eq_of_statement_eq (h : d'.statement = d.statement) : d'.body = d.body :=
  congrArg (fun x => x.2.2) h

/-- The same statement declares the same tags. -/
lemma tags_eq_of_statement_eq (h : d'.statement = d.statement) : d'.tags = d.tags := by
  have hkind : d'.kind = d.kind := congrArg Prod.fst h
  simp [tags, isChoice, hkind, body_eq_of_statement_eq h]

/-- The same statement binds its name in the same way. -/
lemma ofDefinition_eq_of_statement_eq (h : d'.statement = d.statement) (options : List String) :
    Binding.ofDefinition options d' = Binding.ofDefinition options d := by
  have hkind : d'.kind = d.kind := congrArg Prod.fst h
  simp [Binding.ofDefinition, isChoice, hkind, name_eq_of_statement_eq h,
    body_eq_of_statement_eq h]

end Definition

/-- The definitions say the same in some order. -/
def SameStatements (ds ds' : List Definition) : Prop :=
  (ds'.map Definition.statement).Perm (ds.map Definition.statement)

namespace SameStatements

variable {ds ds' : List Definition} {master : Expr}

/-- Having the same statements is symmetric. -/
lemma symm (h : SameStatements ds ds') : SameStatements ds' ds :=
  List.Perm.symm h

/-- Every statement of the one list is in the other. -/
lemma exists_eq (h : SameStatements ds ds') {d : Definition} (hd : d ∈ ds) :
    ∃ d' ∈ ds', d'.statement = d.statement := by
  have hmem : d.statement ∈ ds'.map Definition.statement :=
    h.symm.subset (List.mem_map.mpr ⟨d, hd, rfl⟩)
  simpa using hmem

/-- Lists with the same statements are equally long. -/
lemma length_eq (h : SameStatements ds ds') : ds'.length = ds.length := by
  simpa using List.Perm.length_eq h

/-- The same statements refer to one another in the same way, in whatever order. -/
lemma graphOf_perm (h : SameStatements ds ds') :
    (Resolver.graphOf ds').Perm (Resolver.graphOf ds) := by
  have hmap := h.map fun x => (x.2.1, x.2.2.references)
  simpa [Resolver.graphOf, Function.comp_def, Definition.statement] using hmap

/-- The order of the definitions does not matter to their names. -/
theorem wellNamed_iff (h : SameStatements ds ds') : WellNamed ds' master ↔ WellNamed ds master :=
  ⟨fun hnamed => hnamed.of_perm h.symm.graphOf_perm rfl,
    fun hnamed => hnamed.of_perm h.graphOf_perm rfl⟩

end SameStatements

/-! ### One more definition -/

namespace Resolver

/-- The definition can be put beside the others: its name is free, and every reference in its body
leads to one of them. -/
structure Admits (definitions : List Definition) (d : Definition) : Prop where
  unreserved : ∀ fact : Platform, d.name ≠ fact.name
  new : ∀ c ∈ definitions, c.name ≠ d.name
  bound : Bound definitions d.body

/-- If nothing refers to a name, it is on no way along the references. -/
theorem transGen_of_unreferenced {definitions : List Definition} {d : Definition} {a b : String}
    (hunreferenced : ∀ x, ¬ Refers (d :: definitions) x d.name) (ha : a ≠ d.name)
    (h : Relation.TransGen (Refers (d :: definitions)) a b) :
    b ≠ d.name ∧ Relation.TransGen (Refers definitions) a b := by
  have hstep {x y : String} (hx : x ≠ d.name) (hxy : Refers (d :: definitions) x y) :
      y ≠ d.name ∧ Refers definitions x y := by
    refine ⟨fun hy => hunreferenced x (hy ▸ hxy), ?_⟩
    obtain ⟨c, hc, hname, hmem⟩ := hxy
    rcases List.mem_cons.mp hc with rfl | hc
    · exact absurd hname.symm hx
    · exact ⟨c, hc, hname, hmem⟩
  induction h with
  | single hab =>
    obtain ⟨hb, hab⟩ := hstep ha hab
    exact ⟨hb, .single hab⟩
  | tail _ hbc ih =>
    obtain ⟨hc, hbc⟩ := hstep ih.1 hbc
    exact ⟨hc, ih.2.tail hbc⟩

end Resolver

/-- The names hold together beside a definition that none of the others refers to exactly if they
hold together without it and it can be put beside the others. -/
theorem wellNamed_cons_iff {definitions : List Definition} {d : Definition} {master : Expr}
    (hbodies : ∀ c ∈ definitions, .reference d.name ∉ c.body.nodes)
    (hmaster : .reference d.name ∉ master.nodes) :
    WellNamed (d :: definitions) master ↔
      WellNamed definitions master ∧ Resolver.Admits definitions d := by
  -- A reference to another name than `d` leads to `definitions` if it leads anywhere.
  have hbound {e : Expr} (he : .reference d.name ∉ e.nodes)
      (h : Resolver.Bound (d :: definitions) e) : Resolver.Bound definitions e := by
    intro name hname
    obtain ⟨c, hc, rfl⟩ := h name hname
    rcases List.mem_cons.mp hc with rfl | hc
    · exact absurd hname he
    · exact ⟨c, hc, rfl⟩
  have hweaken {e : Expr} (h : Resolver.Bound definitions e) :
      Resolver.Bound (d :: definitions) e := fun name hname =>
    let ⟨c, hc, hcname⟩ := h name hname
    ⟨c, List.mem_cons_of_mem d hc, hcname⟩
  simp only [Resolver.wellNamed_iff]
  constructor
  · rintro ⟨⟨hfree, hnodup⟩, ⟨hall, hallMaster⟩, hacyclic⟩
    rw [List.map_cons, List.nodup_cons] at hnodup
    rw [List.forall_mem_cons] at hfree hall
    have hself : .reference d.name ∉ d.body.nodes := fun hmem =>
      hacyclic d.name (.single ⟨d, List.mem_cons_self, rfl, hmem⟩)
    refine ⟨⟨⟨hfree.2, hnodup.2⟩, ⟨fun c hc => hbound (hbodies c hc) (hall.2 c hc),
      hbound hmaster hallMaster⟩, fun a ha => ?_⟩, hfree.1, fun c hc hname => ?_,
      hbound hself hall.1⟩
    · refine hacyclic a (Relation.TransGen.mono (fun x y hxy => ?_) a a ha)
      obtain ⟨c, hc, hxy⟩ := hxy
      exact ⟨c, List.mem_cons_of_mem d hc, hxy⟩
    · exact hnodup.1 (List.mem_map.mpr ⟨c, hc, hname⟩)
  · rintro ⟨⟨⟨hfree, hnodup⟩, ⟨hall, hallMaster⟩, hacyclic⟩, hunreserved, hnew, hbody⟩
    have hunreferenced : ∀ x, ¬ Resolver.Refers (d :: definitions) x d.name := by
      rintro x ⟨c, hc, -, hmem⟩
      rcases List.mem_cons.mp hc with rfl | hc
      · obtain ⟨c', hc', hname⟩ := hbody _ hmem
        exact hnew c' hc' hname
      · exact hbodies c hc hmem
    refine ⟨⟨List.forall_mem_cons.mpr ⟨hunreserved, hfree⟩, ?_⟩,
      ⟨List.forall_mem_cons.mpr ⟨hweaken hbody, fun c hc => hweaken (hall c hc)⟩,
        hweaken hallMaster⟩, fun a ha => ?_⟩
    · rw [List.map_cons, List.nodup_cons]
      refine ⟨fun hmem => ?_, hnodup⟩
      obtain ⟨c, hc, hname⟩ := List.mem_map.mp hmem
      exact hnew c hc hname
    · -- The last step of a cycle leads to `a`, which is another name than `d`, then.
      have hne : a ≠ d.name := by
        rintro rfl
        obtain ⟨x, -, hx⟩ := Relation.TransGen.tail'_iff.mp ha
        exact hunreferenced x hx
      exact hacyclic a (Resolver.transGen_of_unreferenced hunreferenced hne ha).2

/-! ### Evaluation -/

namespace Program

/-- What comes of a program under the options that a user gives, in an environment: the questions
with the trace or the error, and the report, unless an option is unknown. -/
def outcome (p : Program) (words : List String) (env : Environment) (settings : Settings) :
    Except SemanticFault (Evaluation × Except EvalError Report) :=
  (p.select words).map fun s => (s.evaluate env settings, s.check env settings)

variable {p p' : Program} {words : List String}

/-- The options are accepted exactly if all of them are tags. -/
theorem select_ok_iff {s : Selection} : p.select words = .ok s ↔
    optionSet words ⊆ p.tags ∧
      s = ⟨optionSet words, p.definitions.map (Binding.ofDefinition (optionSet words)),
        p.master⟩ := by
  have hwithout : Text.without (optionSet words) p.tags = [] ↔ optionSet words ⊆ p.tags := by
    simp [Text.without, List.filter_eq_nil_iff, List.subset_def]
  constructor
  · intro h
    refine ⟨hwithout.mp ?_, select_eq h⟩
    simp only [select] at h
    split at h
    · cases h
    · assumption
  · rintro ⟨hsubset, rfl⟩
    simp only [select, hwithout.mpr hsubset]

/-- Programs with the same tags refuse the same options. -/
theorem select_error_of_tags_eq (htags : p'.tags = p.tags) {fault : SemanticFault}
    (h : p.select words = .error fault) : p'.select words = .error fault := by
  simp only [select, htags] at h ⊢
  split at h
  · exact h
  · cases h

/-- The tags depend on what the definitions say only. -/
theorem tags_subset_of_statements
    (hdefinitions : ∀ d ∈ p.definitions, ∃ d' ∈ p'.definitions, d'.statement = d.statement) :
    p.tags ⊆ p'.tags := by
  intro tag htag
  simp only [tags, Text.mem_nameSet, List.mem_flatMap] at htag ⊢
  obtain ⟨d, hd, htag⟩ := htag
  obtain ⟨d', hd', hstatement⟩ := hdefinitions d hd
  exact ⟨d', hd', by rwa [Definition.tags_eq_of_statement_eq hstatement]⟩

/-- The tags do not depend on the order of the definitions. -/
theorem tags_eq_of_statements (h : SameStatements p.definitions p'.definitions) :
    p'.tags = p.tags := by
  refine Text.nameSet_eq_of_mem_iff fun tag => ?_
  have hsubset := tags_subset_of_statements fun d hd => h.exists_eq hd
  have hsubset' := tags_subset_of_statements fun d hd => h.symm.exists_eq hd
  have hiff : tag ∈ p'.tags ↔ tag ∈ p.tags :=
    ⟨fun htag => hsubset' htag, fun htag => hsubset htag⟩
  simpa only [tags, Text.mem_nameSet] using hiff

/-- A program all of whose definitions another program has, too, is evaluated as the other one is,
if both refer to the same in their master expressions. -/
theorem evaluate_eq_of_statements (hnamed : WellNamed p.definitions p.master)
    (hnodup : (p'.definitions.map Definition.name).Nodup)
    (hdefinitions : ∀ d ∈ p.definitions, ∃ d' ∈ p'.definitions, d'.statement = d.statement)
    (hlength : p.definitions.length ≤ p'.definitions.length) (hmaster : p'.master = p.master)
    {s s' : Selection} (hs : p.select words = .ok s) (hs' : p'.select words = .ok s')
    (env : Environment) (settings : Settings) :
    s'.evaluate env settings = s.evaluate env settings ∧
      s'.check env settings = s.check env settings := by
  have hbinds : ∀ name b, s.find? name = some b → s'.find? name = some b := by
    intro name b hfind
    obtain ⟨d, hd, rfl, rfl⟩ := exists_definition_of_find? hs hfind
    obtain ⟨d', hd', hstatement⟩ := hdefinitions d hd
    rw [← Definition.name_eq_of_statement_eq hstatement, find?_select hnodup hs' hd',
      Definition.ofDefinition_eq_of_statement_eq hstatement]
  obtain ⟨order, hordered, hrefs, horder⟩ := exists_ordered_select hnamed hs
  have hlevels : s.bindings.length ≤ s'.bindings.length := by
    simpa [select_eq hs, select_eq hs'] using hlength
  have hmaster' : s'.master = s.master := by rw [select_eq hs, select_eq hs', hmaster]
  have hrun : Evaluation.eval env settings s' s'.master =
      Evaluation.eval env settings s s.master := by
    rw [Evaluation.eval, Evaluation.eval, hmaster']
    refine Evaluation.evalWith_congr fun name hname => ?_
    exact (Evaluation.followWithin_eq_of_binds hordered hbinds horder hlevels (hrefs hname)).symm
  have hevaluate : s'.evaluate env settings = s.evaluate env settings := by
    rw [Selection.evaluate_eq, Selection.evaluate_eq, hrun]
  refine ⟨hevaluate, ?_⟩
  rw [Selection.check, Selection.check, hevaluate, select_eq hs, select_eq hs']

/-- Under options that are accepted, what comes of a program does not depend on the order of its
definitions, and not on further ones. -/
theorem outcome_eq_of_statements (hnamed : WellNamed p.definitions p.master)
    (hnodup : (p'.definitions.map Definition.name).Nodup)
    (hdefinitions : ∀ d ∈ p.definitions, ∃ d' ∈ p'.definitions, d'.statement = d.statement)
    (hlength : p.definitions.length ≤ p'.definitions.length) (hmaster : p'.master = p.master)
    {s : Selection} (hs : p.select words = .ok s) (env : Environment) (settings : Settings) :
    p'.outcome words env settings = p.outcome words env settings := by
  have hsubset := (select_ok_iff.mp hs).1
  have hs' := select_ok_iff.mpr
    ⟨List.Subset.trans hsubset (tags_subset_of_statements hdefinitions), rfl⟩
  obtain ⟨hevaluate, hcheck⟩ :=
    evaluate_eq_of_statements hnamed hnodup hdefinitions hlength hmaster hs hs' env settings
  rw [outcome, outcome, hs, hs', Except.map, Except.map, hevaluate, hcheck]

/-- What comes of a program does not depend on the order of its definitions. -/
theorem outcome_eq_of_sameStatements (hnamed : WellNamed p.definitions p.master)
    (hnodup : (p'.definitions.map Definition.name).Nodup)
    (h : SameStatements p.definitions p'.definitions) (hmaster : p'.master = p.master)
    (words : List String) (env : Environment) (settings : Settings) :
    p'.outcome words env settings = p.outcome words env settings := by
  cases hs : p.select words with
  | error fault =>
    have hs' := select_error_of_tags_eq (tags_eq_of_statements h) hs
    rw [outcome, outcome, hs, hs']
  | ok s =>
    exact outcome_eq_of_statements hnamed hnodup (fun d hd => h.exists_eq hd) h.length_eq.ge
      hmaster hs env settings

end Program

namespace Script

/-- The script `s'` gives the definitions of `s` in some order, on whatever lines, and the same
master expression. -/
structure Reorders (s s' : Script) : Prop where
  definitions : SameStatements s.definitions s'.definitions
  master : s'.master = s.master

/-- The script `s'` has the definition `d` in addition to those of `s`, at any place, and the same
master expression. -/
structure Adds (s : Script) (d : Definition) (s' : Script) : Prop where
  definitions : SameStatements (d :: s.definitions) s'.definitions
  master : s'.master = s.master

/-- No expression of the script refers to the name. -/
structure Ignores (s : Script) (name : String) : Prop where
  bodies : ∀ d ∈ s.definitions, .reference name ∉ d.body.nodes
  master : .reference name ∉ s.required.nodes

variable {s s' : Script}

/-- A script becomes a program exactly if its names are in order. -/
lemma exists_resolve_iff :
    (∃ p, s.resolve = .ok p) ↔ WellNamed s.definitions s.required := by
  simp only [resolve_ok_iff, exists_and_right, exists_eq, true_and, required]

/-- Reordering the definitions of a script makes no difference to whether it is a program, and none
to what comes of it. Neither does a further definition to which no expression refers, provided that
its name is free and its references lead to definitions of the script, and without this proviso the
script is no program. Under options that the original accepts, the longer program has the same trace
or error for the same questions, and the same report. -/
theorem outcome_blind_to_order_and_unreferenced (s : Script) :
    (∀ s', s.Reorders s' →
      ((∃ p', s'.resolve = .ok p') ↔ ∃ p, s.resolve = .ok p) ∧
      ∀ p p', s.resolve = .ok p → s'.resolve = .ok p' → ∀ words env settings,
        p'.outcome words env settings = p.outcome words env settings) ∧
    ∀ d s', s.Adds d s' → s.Ignores d.name →
      ((∃ p', s'.resolve = .ok p') ↔
        (∃ p, s.resolve = .ok p) ∧ Resolver.Admits s.definitions d) ∧
      ∀ p p', s.resolve = .ok p → s'.resolve = .ok p' →
        ∀ words, (∃ selection, p.select words = .ok selection) → ∀ env settings,
          p'.outcome words env settings = p.outcome words env settings := by
  constructor
  · intro s' h
    have hrequired : s'.required = s.required := by rw [required, required, h.master]
    refine ⟨?_, fun p p' hp hp' words env settings => ?_⟩
    · rw [exists_resolve_iff, exists_resolve_iff, hrequired, h.definitions.wellNamed_iff]
    · obtain ⟨rfl, hnamed⟩ := resolve_ok_iff.mp hp
      obtain ⟨rfl, hnamed'⟩ := resolve_ok_iff.mp hp'
      exact Program.outcome_eq_of_sameStatements hnamed hnamed'.nodup h.definitions hrequired words
        env settings
  · intro d s' h hignores
    have hrequired : s'.required = s.required := by rw [required, required, h.master]
    refine ⟨?_, fun p p' hp hp' words hselect env settings => ?_⟩
    · rw [exists_resolve_iff, exists_resolve_iff, hrequired, h.definitions.wellNamed_iff]
      exact wellNamed_cons_iff hignores.bodies hignores.master
    · obtain ⟨rfl, hnamed⟩ := resolve_ok_iff.mp hp
      obtain ⟨rfl, hnamed'⟩ := resolve_ok_iff.mp hp'
      obtain ⟨selection, hs⟩ := hselect
      have hlength : s.definitions.length ≤ s'.definitions.length := by
        simp [h.definitions.length_eq]
      exact Program.outcome_eq_of_statements hnamed hnamed'.nodup
        (fun c hc => h.definitions.exists_eq (List.mem_cons_of_mem d hc)) hlength hrequired hs env
        settings

/-- A choice may come behind the definition that refers to it, and between the two there may be a
choice with a further option that refers to both and to which nothing refers. -/
theorem outcome_blind_to_order_and_unreferenced_of_later_choice :
    let ssl (line : Nat) : Definition :=
      ⟨.choice, "ssl", .tagged (.package "OpenSSL" none []) "new", line⟩
    let web (line : Nat) : Definition :=
      ⟨.plain, "web", .logical .and (.package "Plack" none []) (.reference "ssl"), line⟩
    let spare : Definition :=
      ⟨.choice, "spare", .logical .or (.reference "web") (.tagged (.reference "ssl") "extra"), 2⟩
    let s (definitions : List Definition) : Script := ⟨definitions, some (.reference "web")⟩
    let p (definitions : List Definition) : Program := ⟨definitions, .reference "web"⟩
    (s [ssl 1, web 2]).Reorders (s [web 1, ssl 2]) ∧
      (s [ssl 1, web 2]).Adds spare (s [ssl 1, spare, web 3]) ∧
      (s [ssl 1, web 2]).Ignores spare.name ∧
      ((∃ p', (s [ssl 1, spare, web 3]).resolve = .ok p') ↔
        (∃ p, (s [ssl 1, web 2]).resolve = .ok p) ∧ Resolver.Admits [ssl 1, web 2] spare) ∧
      (∃ selection, (p [ssl 1, web 2]).select [":new"] = .ok selection) ∧
      ∀ env settings,
        (p [web 1, ssl 2]).outcome [":new"] env settings =
            (p [ssl 1, web 2]).outcome [":new"] env settings ∧
          (p [ssl 1, spare, web 3]).outcome [":new"] env settings =
            (p [ssl 1, web 2]).outcome [":new"] env settings := by
  intro ssl web spare s p
  have hreorders : (s [ssl 1, web 2]).Reorders (s [web 1, ssl 2]) :=
    ⟨.swap (ssl 2).statement (web 1).statement [], rfl⟩
  have hadds : (s [ssl 1, web 2]).Adds spare (s [ssl 1, spare, web 3]) :=
    ⟨.swap spare.statement (ssl 1).statement [(web 3).statement], rfl⟩
  have hignores : (s [ssl 1, web 2]).Ignores spare.name := ⟨by decide +kernel, by decide +kernel⟩
  have hresolve : (s [ssl 1, web 2]).resolve = .ok (p [ssl 1, web 2]) := by decide +kernel
  have hresolve' : (s [web 1, ssl 2]).resolve = .ok (p [web 1, ssl 2]) := by decide +kernel
  have hresolve'' : (s [ssl 1, spare, web 3]).resolve = .ok (p [ssl 1, spare, web 3]) := by
    decide +kernel
  have hselect : ∃ selection, (p [ssl 1, web 2]).select [":new"] = .ok selection :=
    ⟨⟨["new"], [⟨.choice, "ssl", some (ssl 1).body⟩, ⟨.plain, "web", some (web 2).body⟩],
      .reference "web"⟩, by decide +kernel⟩
  obtain ⟨horder, hmore⟩ := outcome_blind_to_order_and_unreferenced (s [ssl 1, web 2])
  obtain ⟨haccepted, hsame⟩ := hmore spare _ hadds hignores
  refine ⟨hreorders, hadds, hignores, haccepted, hselect, fun env settings => ⟨?_, ?_⟩⟩
  · exact (horder _ hreorders).2 _ _ hresolve hresolve' [":new"] env settings
  · exact hsame _ _ hresolve hresolve'' [":new"] hselect env settings

end Script

end Requirements
