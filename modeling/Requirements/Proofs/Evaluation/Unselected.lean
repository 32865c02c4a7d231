import Requirements.Proofs.Evaluation.BigStep
import Requirements.Proofs.Program.Printing
import Requirements.Report.Builder

/-!
# Parts that are not selected

Only the bodies of choices hold tags, and of them a selection keeps what stands under selected tags.
So two programs that differ under other tags only have the same selection, and nothing that is
evaluated can tell them apart; and a trace, which records parts of the selection, shows no tag that
is not selected.
-/

namespace Requirements

/-! ### Programs that agree under options -/

/-- The definitions differ at most in what stands under tags that are not selected, and in their
lines. -/
structure Definition.AgreeUnder (options : List String) (d d' : Definition) : Prop where
  kind : d'.kind = d.kind
  name : d'.name = d.name
  body : d.body.AgreeUnder options d'.body

/-- The programs differ at most in what stands under tags that are not selected, and in the lines of
their definitions. -/
structure Program.AgreeUnder (options : List String) (p p' : Program) : Prop where
  definitions : List.Forall₂ (Definition.AgreeUnder options) p.definitions p'.definitions
  master : p.master.AgreeUnder options p'.master

/-- A plain definition that was read has no tags. -/
theorem Definition.Derived.tags_eq_nil {d : Definition} (h : d.Derived)
    (hplain : d.isChoice = false) : d.body.tags = [] := by
  obtain ⟨words, hderives⟩ := h.derives
  exact hderives.tags_eq_nil hplain

/-- A master expression that was read has no tags. -/
theorem Expr.DerivedMaster.tags_eq_nil {e : Expr} (h : e.DerivedMaster) : e.tags = [] := by
  obtain ⟨words, hderives⟩ := h.derives
  exact hderives.tags_eq_nil rfl

/-- The same is left of definitions that agree under the options. -/
theorem Definition.AgreeUnder.ofDefinition_eq {options : List String} {d d' : Definition}
    (h : d.AgreeUnder options d') (hderived : d.Derived) :
    Binding.ofDefinition options d' = Binding.ofDefinition options d := by
  have hchoice : d'.isChoice = d.isChoice := by rw [isChoice, isChoice, h.kind]
  simp only [Binding.ofDefinition, h.kind, h.name, hchoice, h.body.prune_eq]
  split
  · rfl
  · rename_i hplain
    rw [h.body.eq_of_tags_eq_nil (hderived.tags_eq_nil (by simpa using hplain))]

/-- The same is left of lists of definitions that agree under the options. -/
theorem map_ofDefinition_eq {options : List String} {ds ds' : List Definition}
    (h : List.Forall₂ (Definition.AgreeUnder options) ds ds') (hderived : ∀ d ∈ ds, d.Derived) :
    ds'.map (Binding.ofDefinition options) = ds.map (Binding.ofDefinition options) := by
  induction h with
  | nil => rfl
  | cons hd _ ih =>
    rw [List.forall_mem_cons] at hderived
    rw [List.map_cons, List.map_cons, hd.ofDefinition_eq hderived.1, ih hderived.2]

/-- Programs that agree under the options have the same selection. -/
theorem Program.AgreeUnder.selection_eq {p p' : Program} {words : List String} {s s' : Selection}
    (h : p.AgreeUnder (optionSet words) p') (hderived : p.Derived) (hs : p.select words = .ok s)
    (hs' : p'.select words = .ok s') : s' = s := by
  rw [Program.select_eq hs, Program.select_eq hs',
    map_ofDefinition_eq h.definitions hderived.definitions,
    h.master.eq_of_tags_eq_nil hderived.master.tags_eq_nil]

/-! ### Evaluations under options -/

namespace Program

variable {p : Program} {words : List String} {s : Selection}

/-- What a selection binds has tags among the options only. -/
theorem Derived.tags_body_subset (h : p.Derived) (hs : p.select words = .ok s) {b : Binding}
    {e : Expr} (hb : b ∈ s.bindings) (he : b.body = some e) : e.tags ⊆ optionSet words := by
  rw [select_eq hs] at hb
  obtain ⟨d, hd, rfl⟩ := List.mem_map.mp hb
  simp only [Binding.ofDefinition] at he
  split at he
  · exact Expr.tags_prune_subset he
  · rename_i hplain
    cases he
    rw [(h.definitions d hd).tags_eq_nil (by simpa using hplain)]
    exact List.nil_subset _

end Program

namespace Selection

/-- The parts of a program that an evaluation records have tags among the options only. -/
theorem tagsAmong_of_evaluate {p : Program} {words : List String} {s : Selection}
    (h : p.Derived) (hs : p.select words = .ok s) {env : Environment} {settings : Settings}
    {t : Trace} (ht : (s.evaluate env settings).result = .ok t) :
    ∀ n ∈ t.nodes, n.expr.tags ⊆ optionSet words := by
  intro n hn tag htag
  obtain ⟨m, hm, hmtag⟩ := List.mem_filterMap.mp htag
  rcases List.mem_append.mp ((visits_of_evaluate ht n hn).parts hm) with hmaster | hbody
  · have hmem : tag ∈ s.master.tags := List.mem_filterMap.mpr ⟨m, hmaster, hmtag⟩
    rw [Program.select_eq hs, h.master.tags_eq_nil] at hmem
    cases hmem
  · obtain ⟨e, he, hme⟩ := List.mem_flatMap.mp hbody
    obtain ⟨b, hb, hbe⟩ := List.mem_filterMap.mp he
    exact h.tags_body_subset hs hb hbe (List.mem_filterMap.mpr ⟨m, hme, hmtag⟩)

end Selection

namespace Program

/-- What stands under a tag that is not selected has no influence on an evaluation, and is not
recorded by it. Programs that were read, and that agree but for such parts, give the same trace or
error for the same questions to the environment, and the same report; and a trace shows a tag only
if it is selected. -/
theorem evaluate_blind_to_unselected {source : String} {p : Program} {words : List String}
    {s : Selection} (hcompile : compile source = .ok p) (hselect : p.select words = .ok s)
    (env : Environment) (settings : Settings) :
    (∀ source' p' s', compile source' = .ok p' → p'.select words = .ok s' →
      p.AgreeUnder (optionSet words) p' →
      s'.evaluate env settings = s.evaluate env settings ∧
        s'.check env settings = s.check env settings) ∧
    ∀ t, (s.evaluate env settings).result = .ok t → ∀ n ∈ t.nodes,
      (∀ operand tag, n = .tagged operand tag → tag ∈ optionSet words) ∧
        n.expr.tags ⊆ optionSet words := by
  obtain ⟨hderived, -⟩ := derived_of_compile hcompile
  refine ⟨fun source' p' s' _ hselect' hagree => ?_, fun t ht n hn => ?_⟩
  · obtain rfl := hagree.selection_eq hderived hselect hselect'
    exact ⟨rfl, rfl⟩
  · have htags := Selection.tagsAmong_of_evaluate hderived hselect ht n hn
    refine ⟨?_, htags⟩
    rintro operand tag rfl
    exact htags List.mem_cons_self

/-- Under the option `new`, nothing shows which modules the alternative `old` asks for, or that it
has a tag of its own inside. -/
theorem evaluate_blind_to_unselected_alternative :
    let newer : Expr := .tagged (.package "OpenSSL" none []) "new"
    let older : Expr := .package "LibreSSL" none []
    let older' : Expr := .logical .or (.tagged (.package "Gnu" none []) "gnu") (.bool true)
    let p (e : Expr) : Program :=
      ⟨[⟨.choice, "ssl", .logical .or newer (.tagged e "old"), 1⟩], .reference "ssl"⟩
    Program.compile "choice ssl = OpenSSL as :new || LibreSSL as :old; \x7bssl\x7d" =
        .ok (p older) ∧
      Program.compile "choice ssl = OpenSSL as :new || (Gnu as :gnu || true) as :old; \x7bssl\x7d" =
        .ok (p older') ∧
      ∃ s s', (p older).select [":new"] = .ok s ∧ (p older').select [":new"] = .ok s' ∧
        ∀ env settings, s'.check env settings = s.check env settings ∧
          ∀ t, (s.evaluate env settings).result = .ok t → ∀ n ∈ t.nodes, n.expr.tags ⊆ ["new"] := by
  intro newer older older' p
  have hcompile : Program.compile "choice ssl = OpenSSL as :new || LibreSSL as :old; \x7bssl\x7d" =
      .ok (p older) := by decide +kernel
  have hcompile' : Program.compile
      "choice ssl = OpenSSL as :new || (Gnu as :gnu || true) as :old; \x7bssl\x7d" =
      .ok (p older') := by decide +kernel
  have hselect : (p older).select [":new"] =
      .ok ⟨["new"], [⟨.choice, "ssl", some newer⟩], .reference "ssl"⟩ := by decide +kernel
  have hselect' : (p older').select [":new"] =
      .ok ⟨["new"], [⟨.choice, "ssl", some newer⟩], .reference "ssl"⟩ := by decide +kernel
  have hunselected : "old" ∉ optionSet [":new"] := by decide +kernel
  have hagree : (p older).AgreeUnder (optionSet [":new"]) (p older') :=
    ⟨.cons ⟨rfl, rfl, .logical .or (.refl _) (.unselected _ _ hunselected)⟩ .nil, .refl _⟩
  refine ⟨hcompile, hcompile', _, _, hselect, hselect', fun env settings => ?_⟩
  obtain ⟨hsame, htags⟩ := evaluate_blind_to_unselected hcompile hselect env settings
  exact ⟨(hsame _ _ _ hcompile' hselect' hagree).2, fun t ht n hn => (htags t ht n hn).2⟩

end Program

end Requirements
