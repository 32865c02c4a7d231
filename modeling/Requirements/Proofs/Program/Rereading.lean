import Mathlib.Tactic.Lemma
import Requirements.Proofs.Evaluation.Respelling
import Requirements.Proofs.Program.PrintOrder
import Requirements.Proofs.Program.Selection
import Requirements.Proofs.Text.NameSet

/-!
# Programs that are read back

What is read back from the text of a program has its definitions in the order of printing, each on a
line of its own, with all expressions respelled. It is the same program: it has the same text, its
definitions say the same, and every selection of it is evaluated alike.
-/

namespace Requirements

namespace Definition

/-- The definition as it is read back from a text on the given line. -/
def reread (d : Definition) (line : Nat) : Definition :=
  { d with body := d.body.respell, line }

/-- A reread definition keeps its name. -/
@[simp] lemma name_reread (d : Definition) (line : Nat) : (d.reread line).name = d.name := rfl

/-- A reread definition is a choice if it was one. -/
@[simp] lemma isChoice_reread (d : Definition) (line : Nat) :
    (d.reread line).isChoice = d.isChoice := rfl

/-- A reread definition keeps its tags. -/
@[simp] lemma tags_reread (d : Definition) (line : Nat) : (d.reread line).tags = d.tags := by
  simp [tags, reread, isChoice]

/-- A reread definition is printed as before. -/
@[simp] lemma format_reread (d : Definition) (line : Nat) :
    (d.reread line).format = d.format := by
  simp [format, reread, keyword]

/-- What a definition says, versions being compared as versions: its kind, name, body and tags. -/
def content (d : Definition) : DefinitionKind × String × Expr × List String :=
  (d.kind, d.name, d.body.canonical, d.tags)

/-- A reread definition keeps what the comparison of programs looks at. -/
@[simp] lemma content_reread (d : Definition) (line : Nat) :
    (d.reread line).content = d.content := by
  simp only [content, tags_reread]
  simp [reread]

end Definition

namespace Program

/-- The definitions as they are read back from a text with one on each line, the first of them on
the given line. -/
def rereadFrom (line : Nat) : List Definition → List Definition
  | [] => []
  | d :: definitions => d.reread line :: rereadFrom (line + 1) definitions

/-- The program that is read back from the text of a program. -/
def reread (p : Program) : Program :=
  ⟨rereadFrom 1 p.printOrder, p.master.respell⟩

/-! ### Definitions read back -/

section

variable {α : Type} {f g : Definition → α} (hf : ∀ d line, f (Definition.reread d line) = g d)

include hf

/-- What can be said of a definition without its line is said of the reread ones in order. -/
lemma map_rereadFrom (line : Nat) (definitions : List Definition) :
    (rereadFrom line definitions).map f = definitions.map g := by
  induction definitions generalizing line with
  | nil => rfl
  | cons d definitions ih => rw [rereadFrom, List.map_cons, List.map_cons, hf, ih]

/-- A choice of definitions that does not look at lines is the same among the reread ones. -/
lemma map_filter_rereadFrom {keep : Definition → Bool}
    (hkeep : ∀ d line, keep (Definition.reread d line) = keep d) (line : Nat)
    (definitions : List Definition) :
    ((rereadFrom line definitions).filter keep).map f = (definitions.filter keep).map g := by
  induction definitions generalizing line with
  | nil => rfl
  | cons d definitions ih =>
    rw [rereadFrom, List.filter_cons, List.filter_cons, hkeep]
    split
    · rw [List.map_cons, List.map_cons, hf, ih]
    · exact ih _

/-- A reread definition is found under its name. -/
lemma map_find?_rereadFrom (name : String) (line : Nat) (definitions : List Definition) :
    ((rereadFrom line definitions).find? fun d => d.name == name).map f =
      (definitions.find? fun d => d.name == name).map g := by
  induction definitions generalizing line with
  | nil => rfl
  | cons d definitions ih =>
    rw [rereadFrom, List.find?_cons, List.find?_cons, Definition.name_reread]
    cases d.name == name with
    | true => exact congrArg some (hf d line)
    | false => exact ih _

end

/-- The lines increase from one definition to the next. -/
theorem pairwise_rereadFrom (line : Nat) (definitions : List Definition) :
    (rereadFrom line definitions).Pairwise (fun d e => d.line < e.line) ∧
      ∀ d ∈ rereadFrom line definitions, line ≤ d.line := by
  induction definitions generalizing line with
  | nil => exact ⟨.nil, by simp [rereadFrom]⟩
  | cons d definitions ih =>
    obtain ⟨hpairwise, hlines⟩ := ih (line + 1)
    refine ⟨List.pairwise_cons.mpr ⟨hlines, hpairwise⟩, fun e he => ?_⟩
    rcases List.mem_cons.mp he with rfl | he
    · exact Nat.le_refl line
    · exact Nat.le_of_succ_le (hlines e he)

/-! ### The order of printing -/

/-- Definitions that come in the order of their lines are printed in this order. -/
theorem printOrder_eq {p : Program}
    (h : p.definitions.Pairwise fun d e => d.line < e.line) : p.printOrder = p.definitions := by
  rw [printOrder_eq_iff (h.imp Nat.le_of_lt)]
  exact h.imp fun hlt heq => absurd heq (Nat.ne_of_lt hlt)

/-- A reread program is printed as before. -/
@[simp] lemma format_reread (p : Program) : p.reread.format = p.format := by
  have horder : p.reread.printOrder = p.reread.definitions :=
    printOrder_eq (pairwise_rereadFrom 1 p.printOrder).1
  have hformat : p.reread.definitions.map Definition.format =
      p.printOrder.map Definition.format :=
    map_rereadFrom (fun d line => d.format_reread line) 1 p.printOrder
  rw [format, format, Script.format, Script.format, horder, hformat]
  simp [reread]

/-! ### What the program says -/

/-- Definitions with distinct names are found alike in any order. -/
theorem find?_eq_of_perm {definitions definitions' : List Definition}
    (hnodup : (definitions.map Definition.name).Nodup) (h : definitions'.Perm definitions)
    (name : String) :
    (definitions'.find? fun d => d.name == name) = definitions.find? fun d => d.name == name := by
  cases hfind : definitions.find? fun d => d.name == name with
  | none =>
    rw [List.find?_eq_none] at hfind ⊢
    exact fun d hd => hfind d (h.subset hd)
  | some d =>
    have hname : d.name = name := by simpa using List.find?_some hfind
    have hd := List.mem_of_find?_eq_some hfind
    cases hfind' : definitions'.find? fun d => d.name == name with
    | none =>
      rw [List.find?_eq_none] at hfind'
      exact absurd (by simpa using hname) (hfind' d (h.symm.subset hd))
    | some e =>
      have hname' : e.name = name := by simpa using List.find?_some hfind'
      have he := h.subset (List.mem_of_find?_eq_some hfind')
      rw [List.inj_on_of_nodup_map hnodup he hd (hname'.trans hname.symm)]

/-- In a program with distinct names, the reread definition is found under its name, in whatever
order the definitions are printed. -/
lemma map_find?_reread {α : Type} {f g : Definition → α}
    (hf : ∀ d line, f (Definition.reread d line) = g d) {p : Program}
    (hnodup : (p.definitions.map Definition.name).Nodup) (name : String) :
    (p.reread.find? name).map f = (p.find? name).map g := by
  rw [find?, find?, reread, map_find?_rereadFrom hf, find?_eq_of_perm hnodup p.printOrder_perm]

/-- A reread program has the same tags. -/
@[simp] lemma tags_reread (p : Program) : p.reread.tags = p.tags := by
  have htags : p.reread.definitions.map Definition.tags = p.printOrder.map Definition.tags :=
    map_rereadFrom (fun d line => d.tags_reread line) 1 p.printOrder
  refine Text.nameSet_eq_of_mem_iff fun tag => ?_
  rw [List.flatMap_def, htags, ← List.flatMap_def]
  exact (p.printOrder_perm.flatMap_right _).mem_iff

/-- The table of definitions with distinct names depends on their names and bodies only. -/
theorem table_eq_of_perm {definitions definitions' : List Definition}
    (hnodup : (definitions.map Definition.name).Nodup)
    (h : (definitions'.map fun d => (d.name, d.body.canonical)).Perm
      (definitions.map fun d => (d.name, d.body.canonical))) :
    table definitions' = table definitions := by
  have htable (l : List Definition) :
      table l = Text.sortBy Prod.fst (l.map fun d => (d.name, d.body.canonical)) :=
    Text.map_sortBy Prod.fst (fun d : Definition => (d.name, d.body.canonical)) (fun _ => rfl) l
  rw [htable, htable]
  refine Text.sortBy_eq_of_perm ?_ h
  simpa [Function.comp_def] using hnodup

/-- A reread program is equal to the program, by the comparison that programs have. -/
lemma same_reread {p : Program} (hnodup : (p.definitions.map Definition.name).Nodup) :
    p.reread.same p = true := by
  have htable {keep : Definition → Bool}
      (hkeep : ∀ d line, keep (Definition.reread d line) = keep d) :
      table (p.reread.definitions.filter keep) = table (p.definitions.filter keep) := by
    refine table_eq_of_perm (hnodup.sublist (List.filter_sublist.map _)) ?_
    have hmap : ((rereadFrom 1 p.printOrder).filter keep).map
        (fun d => (d.name, d.body.canonical)) =
        (p.printOrder.filter keep).map fun d => (d.name, d.body.canonical) :=
      map_filter_rereadFrom (fun d line => by simp [Definition.reread]) hkeep 1 p.printOrder
    rw [reread, hmap]
    exact (p.printOrder_perm.filter keep).map _
  have hplains : table p.reread.plains = table p.plains := htable fun d line => rfl
  have hchoices : table p.reread.choices = table p.choices := htable fun d line => rfl
  have hmaster : p.reread.master.canonical = p.master.canonical := by simp [reread]
  simp [same, hplains, hchoices, hmaster]

/-- A reread program has its names in order. -/
lemma wellNamed_reread {p : Program} (h : WellNamed p.definitions p.master) :
    WellNamed p.reread.definitions p.reread.master := by
  refine h.of_perm ?_ (by simp [reread])
  have hgraph : Resolver.graphOf p.reread.definitions = Resolver.graphOf p.printOrder :=
    map_rereadFrom (fun d line => by simp [Definition.reread]) 1 p.printOrder
  rw [hgraph]
  exact p.printOrder_perm.map _

/-! ### Evaluation -/

/-- What the options leave of a definition that was read back is what they leave of the
definition, respelled. -/
theorem ofDefinition_reread (options : List String) (d : Definition) (line : Nat) :
    Binding.ofDefinition options (d.reread line) = (Binding.ofDefinition options d).respell := by
  unfold Binding.ofDefinition Binding.respell
  rw [Definition.isChoice_reread]
  cases d.isChoice with
  | true => simp [Definition.reread, Expr.prune_respell]
  | false => rfl

/-- A selection of the program that was read back is a respelled selection of the program. -/
theorem respelled_select {p : Program} (hnodup : (p.definitions.map Definition.name).Nodup)
    (options : List String) :
    Selection.Respelled ⟨options, p.definitions.map (Binding.ofDefinition options), p.master⟩
      ⟨options, p.reread.definitions.map (Binding.ofDefinition options), p.reread.master⟩ where
  options := rfl
  master := rfl
  length := by
    have hnames := map_rereadFrom (fun d line => d.name_reread line) 1 p.printOrder
    have hlength : p.reread.definitions.length = p.printOrder.length := by
      simpa [reread] using congrArg List.length hnames
    simp [hlength, p.printOrder_perm.length_eq]
  find name := by
    have hfind := map_find?_reread (ofDefinition_reread options) hnodup name
    have hbinding (q : Program) : Selection.find?
        ⟨options, q.definitions.map (Binding.ofDefinition options), q.master⟩ name =
        (q.find? name).map (Binding.ofDefinition options) := by
      rw [Selection.find?, List.find?_map, find?]
      rfl
    rw [hbinding p, hbinding p.reread, hfind, Option.map_map]
    rfl

/-- What comes of a program under the options that a user gives, in an environment: the questions
put to the environment, with the report or the error, unless an option is unknown. -/
def judge (p : Program) (words : List String) (env : Environment) (settings : Settings) :
    Except SemanticFault (List Query × Except EvalError Report) :=
  (p.select words).map fun s => ((s.evaluate env settings).asked, s.check env settings)

/-- A reread program is judged the same on every system. -/
lemma judge_reread {p : Program} (hnodup : (p.definitions.map Definition.name).Nodup)
    (words : List String) (env : Environment) (settings : Settings) :
    p.reread.judge words env settings = p.judge words env settings := by
  have hrespelled := Respelling.evaluate_respelled (respelled_select hnodup (optionSet words)) env
    settings
  simp only [judge, select, tags_reread]
  split
  · rfl
  · simp only [Except.map, hrespelled.1, hrespelled.2]

end Program

end Requirements
