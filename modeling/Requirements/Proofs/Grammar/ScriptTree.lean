import Mathlib.Tactic.Lemma
import Requirements.Proofs.Grammar.Tree

/-!
# Parse trees of scripts

The parse tree of a script has the trees of its definitions and of its master expression. It derives
words; the lines on which the definitions start are read off the tokens. No expression has a word
that starts a definition, so the definitions start at the tokens with such a word.
-/

namespace Requirements

namespace DefinitionKind

/-- The word that starts a definition. -/
def startWord : DefinitionKind → Lexeme
  | plain => .keyword .define
  | choice => .keyword .choice

/-- The keyword of a definition starts one. -/
@[simp] lemma startsDefinition_startWord (kind : DefinitionKind) :
    kind.startWord.startsDefinition = true := by
  cases kind <;> rfl

end DefinitionKind

/-- The lines on which the tokens start definitions. -/
def definitionLines (tokens : List Token) : List Nat :=
  (tokens.filter fun t => t.lexeme.startsDefinition).map fun t => t.start.line

namespace Grammar

/-- The parse tree of a definition. -/
structure DefinitionTree where
  kind : DefinitionKind
  name : String
  body : Tree (.place .logical)
deriving Repr

namespace DefinitionTree

/-- The words that the tree derives. -/
def words (d : DefinitionTree) : List Lexeme :=
  d.kind.startWord :: .name d.name :: .mark .assign :: (d.body.words ++ [.mark .semicolon])

/-- The definition that the words stand for when they start on the given line. -/
def meaning (d : DefinitionTree) (line : Nat) : Definition :=
  ⟨d.kind, d.name, d.body.meaning, line⟩

end DefinitionTree

/-- The parse trees of what comes behind the definitions: nothing, or a master expression with or
without a semicolon. -/
inductive MasterTree where
  | none
  | plain (e : Tree (.place .logical))
  | closed (e : Tree (.place .logical))
deriving Repr

namespace MasterTree

/-- The words that the tree derives. -/
def words : MasterTree → List Lexeme
  | none => []
  | plain e => e.words
  | closed e => e.words ++ [.mark .semicolon]

/-- The tree of the master expression, if there is one. -/
def expr? : MasterTree → Option (Tree (.place .logical))
  | none => Option.none
  | plain e => some e
  | closed e => some e

/-- The master expression, if there is one. -/
def meaning (m : MasterTree) : Option Expr :=
  m.expr?.map fun e => e.meaning

end MasterTree

/-- The parse tree of a script. -/
structure ScriptTree where
  definitions : List DefinitionTree
  master : MasterTree
deriving Repr

namespace ScriptTree

/-- The words that the tree derives. -/
def words (t : ScriptTree) : List Lexeme :=
  t.definitions.flatMap DefinitionTree.words ++ t.master.words

/-- The script that the words stand for when the definitions start on the given lines. -/
def meaning (t : ScriptTree) (lines : List Nat) : Script :=
  ⟨List.zipWith DefinitionTree.meaning t.definitions lines, t.master.meaning⟩

/-- The further conditions on a script: tags stand only in the bodies of choices, no tag is used
twice, the bounds of ranges are in order, and parentheses nest at most `maxNesting` deep. -/
structure Admissible (t : ScriptTree) : Prop where
  bodies : ∀ d ∈ t.definitions, d.body.Fits (d.kind == .choice) maxNesting
  master : ∀ e, t.master.expr? = some e → e.Fits false maxNesting
  tags : (t.definitions.flatMap fun d => d.body.tags).Nodup

end ScriptTree

/-! ### Where definitions start -/

/-- None of the words starts a definition. -/
def StartNone (words : List Lexeme) : Prop :=
  words.all (fun l => !l.startsDefinition) = true

/-- Neither of two parts starts a definition if their words together start none. -/
lemma startNone_append {left right : List Lexeme} :
    StartNone (left ++ right) ↔ StartNone left ∧ StartNone right := by
  simp only [StartNone, List.all_append, Bool.and_eq_true]

/-- No word of an expression starts a definition. -/
theorem Tree.startNone_words {σ : Symbol} (t : Tree σ) : StartNone t.words := by
  induction t with
  | features name _ first others =>
    simp [words, featureWords, StartNone, Lexeme.startsDefinition, List.all_flatMap]
  | probe kind first others =>
    simp [words, argumentWords, StartNone, Lexeme.startsDefinition, List.all_flatMap]
  | operand _ ih => exact ih
  | ordering _ ih => exact ih
  | equality _ ih => exact ih
  | untagged _ ih => exact ih
  | parens _ ih => exact startNone_append.mpr ⟨ih, rfl⟩
  | ordered op _ _ _ ihl ihr => exact startNone_append.mpr ⟨ihl, ihr⟩
  | equated op _ _ _ ihl ihr => exact startNone_append.mpr ⟨ihl, ihr⟩
  | member _ first others ih =>
    refine startNone_append.mpr ⟨ih, ?_⟩
    simp [rangeWords, StartNone, Lexeme.startsDefinition]
  | tagged _ tag ih => exact startNone_append.mpr ⟨ih, rfl⟩
  | chain _ _ ihf ihr => exact startNone_append.mpr ⟨ihf, ihr⟩
  | join op _ _ iht ihr => exact startNone_append.mpr ⟨iht, ihr⟩
  | _ => rfl

/-- The words of a master expression start no definition. -/
lemma MasterTree.startNone_words (m : MasterTree) : StartNone m.words := by
  cases m with
  | none => rfl
  | plain e => exact e.startNone_words
  | closed e => exact startNone_append.mpr ⟨e.startNone_words, rfl⟩

/-- The lines on which definitions start are found part by part. -/
lemma definitionLines_append (front back : List Token) :
    definitionLines (front ++ back) = definitionLines front ++ definitionLines back := by
  simp only [definitionLines, List.filter_append, List.map_append]

/-- Without a word that starts a definition, no definition starts. -/
theorem definitionLines_eq_nil {tokens : List Token} (h : StartNone (tokens.map Token.lexeme)) :
    definitionLines tokens = [] := by
  have hnone : tokens.filter (fun t => t.lexeme.startsDefinition) = [] := by
    simpa [StartNone] using h
  rw [definitionLines, hnone, List.map_nil]

/-- A definition starts where its keyword stands, and no other one starts before its end. -/
theorem DefinitionTree.definitionLines_eq {d : DefinitionTree} {keyword : Token}
    {taken : List Token} (hkeyword : keyword.lexeme = d.kind.startWord)
    (htaken : taken.map Token.lexeme =
      .name d.name :: .mark .assign :: (d.body.words ++ [.mark .semicolon])) :
    definitionLines (keyword :: taken) = [keyword.start.line] := by
  have hnone : definitionLines taken = [] := by
    refine definitionLines_eq_nil ?_
    rw [htaken]
    exact startNone_append.mpr ⟨d.body.startNone_words, rfl⟩
  rw [definitionLines, List.filter_cons_of_pos (by simp [hkeyword]), List.map_cons]
  exact congrArg _ hnone

/-! ### Trees and derivations -/

/-- The word that announces a definition is the one that starts it. -/
theorem announced?_eq_some_iff {l : Lexeme} {kind : DefinitionKind} :
    Parser.announced? (some l) = some kind ↔ l = kind.startWord := by
  cases l with
  | keyword k => cases k <;> cases kind <;> simp [Parser.announced?, DefinitionKind.startWord]
  | _ => cases kind <;> simp [Parser.announced?, DefinitionKind.startWord]

/-- The definitions of a program are trees, each with the line of its keyword. -/
lemma DerivesDefinitions.exists_trees {tokens : List Token} {definitions : List Definition}
    (h : DerivesDefinitions tokens definitions) :
    ∃ trees : List DefinitionTree, trees.flatMap DefinitionTree.words = tokens.map Token.lexeme ∧
      (∀ d ∈ trees, d.body.Fits (d.kind == .choice) maxNesting) ∧
      List.zipWith DefinitionTree.meaning trees (definitionLines tokens) = definitions := by
  induction h with
  | nil => exact ⟨[], rfl, by simp, rfl⟩
  | @cons kind keyword taken rest name words body definitions hkind hwords hbody _ ih =>
    obtain ⟨t, hfits, rfl, rfl⟩ := derives_iff_exists_tree.mp hbody
    obtain ⟨trees, htrees, hall, hmeaning⟩ := ih
    have hkeyword : keyword.lexeme = kind.startWord := announced?_eq_some_iff.mp hkind
    have hlines : definitionLines (keyword :: taken) = [keyword.start.line] :=
      DefinitionTree.definitionLines_eq (d := ⟨kind, name, t⟩) hkeyword hwords
    refine ⟨⟨kind, name, t⟩ :: trees, ?_, List.forall_mem_cons.mpr ⟨hfits, hall⟩, ?_⟩
    · rw [List.flatMap_cons, htrees, List.map_cons, List.map_append, hwords, hkeyword]
      rfl
    · rw [← List.cons_append, definitionLines_append, hlines, List.singleton_append,
        List.zipWith_cons_cons, hmeaning]
      rfl

/-- Trees that meet the conditions derive the definitions that they stand for, which have the tags
of the trees. -/
theorem derivesDefinitions_of_trees {trees : List DefinitionTree} {tokens : List Token}
    (hwords : trees.flatMap DefinitionTree.words = tokens.map Token.lexeme)
    (hfits : ∀ d ∈ trees, d.body.Fits (d.kind == .choice) maxNesting) :
    let definitions := List.zipWith DefinitionTree.meaning trees (definitionLines tokens)
    DerivesDefinitions tokens definitions ∧
      (definitions.flatMap fun d => d.body.tags) = trees.flatMap fun d => d.body.tags := by
  induction trees generalizing tokens with
  | nil =>
    obtain rfl : tokens = [] := List.map_eq_nil_iff.mp hwords.symm
    exact ⟨.nil, rfl⟩
  | cons d trees ih =>
    rw [List.forall_mem_cons] at hfits
    rw [List.flatMap_cons] at hwords
    obtain ⟨front, rest, rfl, hfront, hrest⟩ := List.map_eq_append_iff.mp hwords.symm
    obtain ⟨keyword, taken, rfl, hkeyword, htaken⟩ := List.map_eq_cons_iff.mp hfront
    obtain ⟨hderives, htags⟩ := ih hrest.symm hfits.2
    have hlines : definitionLines (keyword :: taken) = [keyword.start.line] :=
      DefinitionTree.definitionLines_eq hkeyword htaken
    have hbody : (d.meaning keyword.start.line).body.tags = d.body.tags := d.body.hasTags_meaning
    rw [definitionLines_append, hlines, List.singleton_append, List.zipWith_cons_cons]
    refine ⟨.cons (announced?_eq_some_iff.mpr hkeyword) htaken hfits.1.derives hderives, ?_⟩
    rw [List.flatMap_cons, List.flatMap_cons, hbody, htags]

/-- A master expression derives from words exactly if it is the meaning of a tree of them that
fits. -/
lemma derivesMaster_iff_exists_tree {words : List Lexeme} {master : Option Expr} :
    DerivesMaster words master ↔ ∃ m : MasterTree, m.words = words ∧ m.meaning = master ∧
      ∀ e, m.expr? = some e → e.Fits false maxNesting := by
  constructor
  · rintro (_ | h | h)
    · exact ⟨.none, rfl, rfl, by simp [MasterTree.expr?]⟩
    · obtain ⟨t, hfits, rfl, rfl⟩ := derives_iff_exists_tree.mp h
      exact ⟨.plain t, rfl, rfl, by rintro e ⟨⟩; exact hfits⟩
    · obtain ⟨t, hfits, rfl, rfl⟩ := derives_iff_exists_tree.mp h
      exact ⟨.closed t, rfl, rfl, by rintro e ⟨⟩; exact hfits⟩
  · rintro ⟨m, rfl, rfl, hfits⟩
    cases m with
    | none => exact .none
    | plain e => exact .plain (hfits e rfl).derives
    | closed e => exact .closed (hfits e rfl).derives

/-- Tokens derive a script exactly if an admissible tree has their words and stands for the
script. -/
theorem derivesScript_iff_exists_tree {tokens : List Token} {s : Script} :
    DerivesScript tokens s ↔ ∃ t : ScriptTree, t.words = tokens.map Token.lexeme ∧
      t.Admissible ∧ t.meaning (definitionLines tokens) = s := by
  have hlines {front back : List Token} {m : MasterTree}
      (hback : m.words = back.map Token.lexeme) :
      definitionLines (front ++ back) = definitionLines front := by
    have hnone : definitionLines back = [] :=
      definitionLines_eq_nil (hback ▸ m.startNone_words)
    rw [definitionLines_append, hnone, List.append_nil]
  constructor
  · rintro ⟨front, back, rfl, hdefinitions, hmaster, htags⟩
    obtain ⟨trees, htrees, hfits, hmeaning⟩ := hdefinitions.exists_trees
    obtain ⟨m, hwords, hm, hmfits⟩ := derivesMaster_iff_exists_tree.mp hmaster
    -- The trees stand for the same definitions again, which is how their tags are compared.
    have htags' := (derivesDefinitions_of_trees htrees hfits).2
    refine ⟨⟨trees, m⟩, ?_, ⟨hfits, hmfits, ?_⟩, ?_⟩
    · rw [ScriptTree.words, htrees, hwords, List.map_append]
    · rw [← htags', hmeaning]
      exact htags
    · rw [ScriptTree.meaning, hlines hwords, hmeaning, hm]
  · rintro ⟨⟨trees, m⟩, hwords, ⟨hfits, hmfits, htags⟩, rfl⟩
    obtain ⟨front, back, rfl, hfront, hback⟩ := List.map_eq_append_iff.mp hwords.symm
    obtain ⟨hderives, htags'⟩ := derivesDefinitions_of_trees hfront.symm hfits
    have hmaster : DerivesMaster (back.map Token.lexeme) m.meaning :=
      derivesMaster_iff_exists_tree.mpr ⟨m, hback.symm, rfl, hmfits⟩
    rw [ScriptTree.meaning, hlines hback.symm]
    exact ⟨front, back, rfl, hderives, hmaster, htags' ▸ htags⟩

end Grammar

end Requirements
