import Mathlib.Tactic.Lemma
import Requirements.Proofs.Grammar.Completeness
import Requirements.Proofs.Grammar.Soundness
import Requirements.Proofs.Grammar.Spelling
import Requirements.Proofs.Program.Rereading

/-!
# Printed programs

The text of a program that was read is read again, as the same program. The words of each definition
stand on a line of their own, and by `Grammar.derives_words` they derive the definition without more
levels of parentheses than the text had that it came from.
-/

namespace Requirements

/-! ### Definitions that were derived -/

/-- The definition could have been read: its name and those in its body are names, and some words
derive its body. -/
structure Definition.Derived (d : Definition) : Prop where
  name : IsName d.name
  body : d.body.Proper
  derives : ∃ words, Grammar.Derives (d.kind == .choice) maxNesting .logical words d.body

/-- The master expression could have been read. -/
structure Expr.DerivedMaster (e : Expr) : Prop where
  proper : e.Proper
  derives : ∃ words, Grammar.Derives false maxNesting .logical words e

namespace Grammar

/-- The definitions read from tokens are ones that a text can have. -/
lemma DerivesDefinitions.derived {tokens : List Token} {definitions : List Definition}
    (h : DerivesDefinitions tokens definitions) (htokens : ∀ t ∈ tokens, t.lexeme.Proper) :
    ∀ d ∈ definitions, d.Derived := by
  induction h with
  | nil => simp
  | @cons kind keyword taken rest name words body definitions hkind htaken hbody _ ih =>
    have hwords : ∀ w ∈ Lexeme.name name :: .mark .assign :: (words ++ [.mark .semicolon]),
        w.Proper := by
      intro w hw
      rw [← htaken] at hw
      obtain ⟨t, ht, rfl⟩ := List.mem_map.mp hw
      exact htokens t (by simp [ht])
    intro d hd
    rcases List.mem_cons.mp hd with rfl | hd
    · exact ⟨hwords (.name name) (by simp), hbody.proper fun w hw => hwords w (by simp [hw]),
        words, hbody⟩
    · exact ih (fun t ht => htokens t (by simp [ht])) d hd

/-- The master read from words is one that a text can have. -/
lemma DerivesMaster.derived {words : List Lexeme} {master : Option Expr}
    (h : DerivesMaster words master) (hwords : ∀ w ∈ words, w.Proper) :
    (master.getD (.bool true)).DerivedMaster := by
  cases h with
  | none => exact ⟨trivial, _, .weaken (by simp [Expr.Strength.rank]) .yes⟩
  | plain h => exact ⟨h.proper hwords, _, h⟩
  | closed h => exact ⟨h.proper fun w hw => hwords w (by simp [hw]), _, h⟩

end Grammar

namespace Program

/-- The definitions of a program and its master expression could have been read, and no tag is used
twice. -/
structure Derived (p : Program) : Prop where
  definitions : ∀ d ∈ p.definitions, d.Derived
  master : p.master.DerivedMaster
  nodup : (p.definitions.flatMap fun d => d.body.tags).Nodup

/-- A compiled program is one that a text can have, with its names in order. -/
lemma derived_of_compile {source : String} {p : Program} (h : compile source = .ok p) :
    p.Derived ∧ WellNamed p.definitions p.master := by
  obtain ⟨s, hparse, rfl, hnamed⟩ := compile_ok_iff.mp h
  obtain ⟨stream, htokenize, front, back, htokens, hdefinitions, hmaster, hnodup⟩ :=
    Script.exists_derives_of_parse hparse
  have hproper := proper_of_tokenize htokenize
  rw [htokens] at hproper
  refine ⟨⟨hdefinitions.derived fun t ht => hproper t (by simp [ht]),
    hmaster.derived fun w hw => ?_, hnodup⟩, hnamed⟩
  obtain ⟨t, ht, rfl⟩ := List.mem_map.mp hw
  exact hproper t (by simp [ht])

end Program

/-! ### Definitions, printed and cut -/

namespace DefinitionKind

/-- The keyword that announces a definition. -/
def keyword : DefinitionKind → Keyword
  | plain => .define
  | choice => .choice

end DefinitionKind

namespace Definition

/-- The words that are printed for a definition behind its keyword. -/
def words (d : Definition) : List Lexeme :=
  .name d.name :: .mark .assign :: (d.body.words ++ [.mark .semicolon])

end Definition

namespace Lexer

/-- A printed definition spells its keyword and its words. -/
lemma spells_definition {d : Definition} (h : d.Derived) (rest : List Char) :
    Spells .plain .plain d.format.toList rest (.keyword d.kind.keyword :: d.words) := by
  have hkeyword : d.kind.keyword.text = d.keyword := by
    unfold Definition.keyword
    cases d.kind <;> rfl
  have hblank (rest : List Char) : Spells .plain .plain [' '] rest [] := spells_blank _ _
  have hannounced (rest : List Char) :
      Spells .plain .plain d.keyword.toList (' ' :: rest) [.keyword d.kind.keyword] :=
    hkeyword ▸ spells_keyword 0 d.kind.keyword (endsExpr_cons (by decide) rest).endsName
  have hassign (rest : List Char) :
      Spells .plain .plain "=".toList (' ' :: rest) [.mark .assign] := spells_assign 0 rest
  have hclose : Spells .plain .plain [';'] rest [.mark .semicolon] :=
    spells_plain_mark (m := .semicolon) (by decide) rest
  have hends : EndsExpr (';' :: rest) := endsExpr_cons (by decide) rest
  have hequation := (Spelled.name h.name).spaced hassign (spelled_format h.body) _ hends
  have hall := (hannounced _).append ((hblank _).append (hequation.append hclose))
  simpa [Definition.format, Definition.words] using hall

/-- Definitions, each with a line of its own, are cut into tokens that derive them. -/
theorem cuts_definitions {definitions : List Definition} (h : ∀ d ∈ definitions, d.Derived)
    (ctx : Context) (position : Position) (hctx : ctx.region = .plain) (rest : List Char) :
    ∃ (ctx' : Context) (position' : Position) (tokens : List Token), ctx'.region = .plain ∧
      Cuts ⟨ctx, position, (definitions.flatMap fun d => d.format.toList ++ ['\n']) ++ rest⟩ tokens
        ⟨ctx', position', rest⟩ ∧
      Grammar.DerivesDefinitions tokens (Program.rereadFrom position.line definitions) := by
  induction definitions generalizing ctx position with
  | nil => exact ⟨ctx, position, [], hctx, .none _, .nil⟩
  | cons d definitions ih =>
    have hd := h d (by simp)
    -- The pieces of the definition stay on its line; only the line break behind it leads to the
    -- next one, from which the remaining definitions are cut.
    obtain ⟨ctx₁, tokens₁, hctx₁, hcuts₁, hwords, hlines⟩ :=
      (spells_definition hd ('\n' :: ((definitions.flatMap fun d => d.format.toList ++ ['\n']) ++
        rest))).cuts ctx position hctx
    have hline : '\n' ∉ d.format.toList := (spells_definition hd []).line
    have hctx₂ : (ctx₁.after none).region = .plain := by
      rw [ctx₁.region_after, hctx₁]
      rfl
    obtain ⟨ctx', position', tokens₂, hctx', hcuts₂, hderives⟩ :=
      ih (fun e he => h e (by simp [he])) (ctx₁.after none)
        ((position.advanceOver d.format.toList).advance '\n') hctx₂
    have hnext :
        ((position.advanceOver d.format.toList).advance '\n').line = position.line + 1 := by
      rw [Position.advance, if_pos rfl, Position.line_advanceOver position hline]
    rw [hnext] at hderives
    obtain ⟨keyword, taken, rfl, hkeyword, htaken⟩ := List.map_eq_cons_iff.mp hwords
    refine ⟨ctx', position', (keyword :: taken) ++ ([] ++ tokens₂), hctx', ?_, ?_⟩
    · have hall := hcuts₁.trans ((cuts_newline hctx₁ _ _).trans hcuts₂)
      simpa using hall
    · obtain ⟨words, hbody⟩ := hd.derives
      have hkind : Parser.announced? (some keyword.lexeme) = some d.kind := by
        rw [hkeyword]
        cases d.kind <;> rfl
      have hcons := Grammar.DerivesDefinitions.cons hkind htaken (Grammar.derives_words hbody)
        hderives
      rw [hlines keyword (by simp)] at hcons
      exact hcons

end Lexer

/-- The definitions of a script stand on a line each, and its master expression behind them. -/
theorem Script.toList_format (definitions : List Definition) (master : Expr) :
    (Script.mk definitions (some master)).format.toList =
      (definitions.flatMap fun d => d.format.toList ++ ['\n']) ++ master.format.toList := by
  rw [Script.format]
  induction definitions with
  | nil => simp
  | cons d definitions ih =>
    simp only [List.map_cons, List.cons_append, Option.map_some, Option.toList_some] at ih ⊢
    rw [String.intercalate_cons_of_ne_nil (by simp), String.toList_append, String.toList_append, ih]
    simp

namespace Program

/-- A program is printed as its definitions, each on a line, and its master. -/
lemma toList_format (p : Program) :
    p.format.toList =
      (p.printOrder.flatMap fun d => d.format.toList ++ ['\n']) ++ p.master.format.toList :=
  Script.toList_format p.printOrder p.master

/-- The tokens of a printed program derive the program that is read back. -/
theorem tokenize_format {p : Program} (h : p.Derived) :
    ∃ stream, tokenize p.format = .ok stream ∧
      Grammar.DerivesScript stream.tokens ⟨p.reread.definitions, some p.reread.master⟩ := by
  have hdefinitions : ∀ d ∈ p.printOrder, d.Derived :=
    fun d hd => h.definitions d (p.printOrder_perm.subset hd)
  obtain ⟨ctx, position, front, hctx, hcuts, hfront⟩ :=
    Lexer.cuts_definitions hdefinitions .initial .start rfl p.master.format.toList
  have hends : Lexer.EndsExpr [] := by rintro c ⟨⟩
  obtain ⟨ctx', back, hctx', hcuts', hback, -⟩ :=
    (Lexer.spelled_format h.master.proper [] hends).cuts ctx position hctx
  rw [List.append_nil] at hcuts'
  have hdepth : ctx'.depth = 0 := congrArg Lexer.Region.depth hctx'
  refine ⟨⟨front ++ back, position.advanceOver p.master.format.toList⟩, ?_, ?_⟩
  · rw [tokenize, toList_format]
    exact Lexer.tokensFrom_ok_iff.mpr ⟨ctx', hdepth, hcuts.trans hcuts'⟩
  · refine ⟨front, back, rfl, hfront, ?_, ?_⟩
    · obtain ⟨words, hmaster⟩ := h.master.derives
      rw [hback]
      exact .plain (Grammar.derives_words hmaster)
    · have htags : p.reread.definitions.map (fun d => d.body.tags) =
          p.printOrder.map fun d => d.body.tags :=
        map_rereadFrom (fun d line => by simp [Definition.reread]) 1 p.printOrder
      rw [List.flatMap_def, htags, ← List.flatMap_def]
      exact (p.printOrder_perm.flatMap_right _).nodup_iff.mpr h.nodup

/-- A program that could have been read is read back from its text. -/
lemma compile_format_of_derived {p : Program} (hderived : p.Derived)
    (hnamed : WellNamed p.definitions p.master) : compile p.format = .ok p.reread := by
  obtain ⟨stream, htokenize, hscript⟩ := tokenize_format hderived
  exact compile_ok_iff.mpr ⟨⟨p.reread.definitions, some p.reread.master⟩,
    Script.parse_of_derives htokenize hscript, rfl, wellNamed_reread hnamed⟩

/-- A program that was read is read back from its text. -/
theorem compile_format_eq {source : String} {p : Program} (h : compile source = .ok p) :
    compile p.format = .ok p.reread := by
  obtain ⟨hderived, hnamed⟩ := derived_of_compile h
  exact compile_format_of_derived hderived hnamed

/-- A program that was read can be read again from its text, as a program that is the same. Name by
name, the definitions say the same; the text of it is the same to the character; and under any
options, in any environment, the same questions are asked, with the same report or error. -/
theorem compile_format {source : String} {p : Program} (h : compile source = .ok p) :
    ∃ p', compile p.format = .ok p' ∧ p'.same p = true ∧
      (∀ name, (p'.find? name).map Definition.content = (p.find? name).map Definition.content) ∧
      p'.format = p.format ∧
      ∀ (words : List String) (env : Environment) (settings : Settings),
        p'.judge words env settings = p.judge words env settings := by
  have hnodup := (derived_of_compile h).2.nodup
  exact ⟨p.reread, compile_format_eq h, same_reread hnodup,
    map_find?_reread (fun d line => d.content_reread line) hnodup, p.format_reread,
    judge_reread hnodup⟩

/-- A range with equal bounds is printed as its low bound, in a program that is the same. -/
theorem compile_format_of_equal_bounds :
    let low : Version := ⟨[.number 1], "1"⟩
    let high : Version := ⟨[.number 1, .number 0], "1.0"⟩
    let condition : Constraint := .within ⟨[⟨some low, some high, false⟩]⟩
    let p : Program :=
      ⟨[⟨.choice, "ssl", .tagged (.package "OpenSSL" (some condition) ["x"]) "new", 2⟩],
        .logical .or (.reference "ssl") (.compare .eq (.text "it's") (.version high))⟩
    compile "\nchoice ssl=(OpenSSL#(x) in [1-1.0]) as :new; \x7bssl\x7d || \"it's\" == 1.0" =
        .ok p ∧
      p.format = "choice ssl = OpenSSL#(x) in [1] as :new;\n\x7bssl\x7d || 'it\\'s' == 1.0" ∧
      ∃ p', compile p.format = .ok p' ∧ p'.same p = true ∧ p'.format = p.format := by
  intro low high condition p
  have hcompile : compile
      "\nchoice ssl=(OpenSSL#(x) in [1-1.0]) as :new; \x7bssl\x7d || \"it's\" == 1.0" = .ok p := by
    decide +kernel
  obtain ⟨p', hread, hsame, -, hformat, -⟩ := compile_format hcompile
  exact ⟨hcompile, by decide +kernel, p', hread, hsame, hformat⟩

end Program

end Requirements
