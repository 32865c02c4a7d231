import Mathlib.Tactic.Lemma
import Requirements.Proofs.Grammar.Completeness
import Requirements.Proofs.Grammar.Frames
import Requirements.Proofs.Grammar.Groups
import Requirements.Proofs.Grammar.Soundness

/-!
# Parentheses in programs

A program in which an expression is replaced by its printed text is read as the same program. If the
text lacks a pair of its grouping parentheses, the program is not read, or another expression stands
there: by `Grammar.Derives.canonical_ne`, no words with fewer parentheses derive an equal
expression.
-/

namespace Requirements

open Grammar Lexer

/-- A text parted around one of its expressions, which has the given number of expressions in front
of it. Every word lies in one of the parts. -/
structure Surroundings (source : String) (index : Nat) where
  front : String
  body : String
  back : String
  eq_source : source = front ++ body ++ back
  frontWords : List Lexeme
  bodyWords : List Lexeme
  backWords : List Lexeme
  front_words : HasWords front frontWords
  body_words : HasWords body bodyWords
  back_words : HasWords back backWords
  source_words : HasWords source (frontWords ++ (bodyWords ++ backWords))
  frames : Frames index frontWords backWords
  unseparated : Unseparated bodyWords

namespace Surroundings

variable {source : String} {index : Nat} {s : Script} {e : Expr}

/-- The text with another one for the expression, on lines of its own. -/
def fill (p : Surroundings source index) (text : String) : String :=
  p.front ++ "\n" ++ text ++ "\n" ++ p.back

/-- A text that has words has them between the words of its surroundings. -/
lemma hasWords_fill (p : Surroundings source index) {text : String} {words : List Lexeme}
    (h : HasWords text words) :
    HasWords (p.fill text) (p.frontWords ++ (words ++ p.backWords)) := by
  rw [← List.append_assoc]
  exact (p.front_words.lines h).lines p.back_words

/-- The words around an expression of a script are those of the text around it. -/
theorem framed_eq (p : Surroundings source index) {text : String} {words : List Lexeme}
    (htext : HasWords text (p.frontWords ++ (words ++ p.backWords))) (hwords : Unseparated words)
    (hparse : Script.parse text = .ok s) (he : s.expressions[index]? = some e) :
    ∃ f : Framed s index (p.frontWords ++ (words ++ p.backWords)) e,
      f.front = p.frontWords ∧ f.body = words ∧ f.back = p.backWords := by
  obtain ⟨stream, htokenize, hscript⟩ := Script.exists_derives_of_parse hparse
  obtain ⟨f⟩ := hscript.exists_framed he
  rw [htext.eq_of_tokenize htokenize] at f
  exact ⟨f, f.frames.unique p.frames f.derives.unseparated hwords f.eq_words.symm⟩

end Surroundings

namespace Script

variable {source : String} {index : Nat} {s : Script} {e : Expr}

/-- A text can be parted around each of its expressions. -/
theorem exists_surroundings (hparse : parse source = .ok s)
    (he : s.expressions[index]? = some e) : Nonempty (Surroundings source index) := by
  obtain ⟨stream, htokenize, hscript⟩ := exists_derives_of_parse hparse
  obtain ⟨f⟩ := hscript.exists_framed he
  have hsource : HasWords source (f.front ++ (f.body ++ f.back)) :=
    ⟨stream, htokenize, f.eq_words⟩
  obtain ⟨l, rest, hbody, hstarts⟩ := f.derives.startsExpr
  have hopen : (f.body ++ f.back).head? ≠ some .openFeatures := by
    rw [hbody]
    rintro ⟨⟩
    cases hstarts
  have hopen' : f.back.head? ≠ some .openFeatures := by
    intro hhead
    cases f.frames.head _ hhead
  obtain ⟨front, rest, rfl, hfront, hrest⟩ := hsource.part f.region hopen
  obtain ⟨body, back, rfl, hbody, hback⟩ := hrest.part f.derives.behind_eq hopen'
  exact ⟨⟨front, body, back, String.append_assoc.symm, f.front, f.body, f.back, hfront,
    hbody, hback, hsource, f.frames, f.derives.unseparated⟩⟩

/-- An expression that was read is made of proper words. -/
theorem proper_of_parse (hparse : parse source = .ok s)
    (he : s.expressions[index]? = some e) : e.Proper := by
  obtain ⟨stream, htokenize, hscript⟩ := exists_derives_of_parse hparse
  obtain ⟨f⟩ := hscript.exists_framed he
  refine f.derives.proper fun l hl => ?_
  have hmem : l ∈ stream.tokens.map Token.lexeme := by simp [f.eq_words, hl]
  obtain ⟨t, ht, rfl⟩ := List.mem_map.mp hmem
  exact proper_of_tokenize htokenize t ht

/-- The printer writes the fewest parentheses. In the place of an expression, its printed text is
read as an equal expression, which leaves the others as they are; but if any one pair of grouping
parentheses is left out of the text, no equal expression is read there. -/
theorem parentheses_necessary (hparse : parse source = .ok s)
    (he : s.expressions[index]? = some e) :
    Nonempty (Surroundings source index) ∧ ∀ p : Surroundings source index,
      (∃ s', parse (p.fill e.format) = .ok s' ∧
        s'.expressions.map Expr.canonical = s.expressions.map Expr.canonical) ∧
      ∃ stream, tokenize e.format = .ok stream ∧ ∀ (g : Group stream.tokens) (s' : Script),
        parse (p.fill (g.dropFrom e.format)) = .ok s' →
          s'.expressions[index]?.map Expr.canonical ≠ some e.canonical := by
  have hproper := proper_of_parse hparse he
  have hformat : HasWords e.format e.words := .of_spells (spelled_format hproper [] nofun)
  refine ⟨exists_surroundings hparse he, fun p => ?_⟩
  obtain ⟨f, hfront, -, hback⟩ := p.framed_eq p.source_words p.unseparated hparse he
  have hwords : Derives f.inChoice maxNesting .logical e.words e.respell := derives_words f.derives
  constructor
  · obtain ⟨stream, htokenize, htokens⟩ := p.hasWords_fill hformat
    have hframed : stream.tokens.map Token.lexeme = f.front ++ (e.words ++ f.back) := by
      rw [htokens, hfront, hback]
    obtain ⟨s', hs', hexpressions⟩ :=
      f.replace e.words e.respell hwords e.tags_respell stream.tokens hframed
    refine ⟨s', parse_of_derives htokenize hs', ?_⟩
    rw [hexpressions, map_set_eq he e.canonical_respell]
  · obtain ⟨stream, htokenize, -⟩ := hformat
    refine ⟨stream, htokenize, fun g s' hparse' heq => ?_⟩
    obtain ⟨e', he', hcanonical⟩ := Option.map_eq_some_iff.mp heq
    obtain ⟨words, hspelled, hsublist, hlt⟩ := g.exists_spelled hproper htokenize
    have hdropped : HasWords (g.dropFrom e.format) words := .of_spells (hspelled [] nofun)
    have hunseparated : Unseparated words :=
      fun l hl => hwords.unseparated l (hsublist.subset hl)
    obtain ⟨f', -, hbody, -⟩ := p.framed_eq (p.hasWords_fill hdropped) hunseparated hparse' he'
    exact (hbody ▸ f'.derives).canonical_ne hlt hcanonical

/-- Without its parentheses, the body of a definition is read as another expression. -/
theorem parentheses_necessary_of_definition :
    let a : Expr := .package "A" none []
    let b : Expr := .package "B" none []
    let c : Expr := .package "C" none []
    let s (body : Expr) : Script := ⟨[⟨.plain, "x", body, 1⟩], some (.reference "x")⟩
    let e : Expr := .logical .and a (.logical .or b c)
    let source := "define x = (A) && (B || C); \x7bx\x7d"
    parse source = .ok (s e) ∧ (s e).expressions[0]? = some e ∧ e.format = "A && (B || C)" ∧
      ∃ (p : Surroundings source 0) (stream : TokenStream) (g : Group stream.tokens),
        tokenize e.format = .ok stream ∧ g.dropFrom e.format = "A && B || C" ∧
        p.fill (g.dropFrom e.format) = "define x =\nA && B || C\n; \x7bx\x7d" ∧
        parse (p.fill (g.dropFrom e.format)) = .ok (s (.logical .or (.logical .and a b) c)) ∧
        ∀ s', parse (p.fill (g.dropFrom e.format)) = .ok s' →
          s'.expressions[0]?.map Expr.canonical ≠ some e.canonical := by
  intro a b c s e source
  have hparse : parse source = .ok (s e) := by decide +kernel
  have hformat : e.format = "A && (B || C)" := by decide +kernel
  let front : List Lexeme := [.keyword .define, .name "x", .mark .assign]
  let body : List Lexeme := [.mark .openParen, .name "A", .mark .closeParen, .logical .and,
    .mark .openParen, .name "B", .logical .or, .name "C", .mark .closeParen]
  let back : List Lexeme := [.mark .semicolon, .mark .openBrace, .name "x", .mark .closeBrace]
  let p : Surroundings source 0 :=
    ⟨"define x =", " (A) && (B || C)", "; \x7bx\x7d", by decide +kernel, front, body, back,
      by decide +kernel, by decide +kernel, by decide +kernel, by decide +kernel,
      ⟨by decide, by decide, by decide⟩, by decide⟩
  let before : List Token := [⟨.name "A", ⟨0, 1, 1⟩, 1⟩, ⟨.logical .and, ⟨2, 1, 3⟩, 4⟩]
  let inside : List Token :=
    [⟨.name "B", ⟨6, 1, 7⟩, 7⟩, ⟨.logical .or, ⟨8, 1, 9⟩, 10⟩, ⟨.name "C", ⟨11, 1, 12⟩, 12⟩]
  let stream : TokenStream := ⟨before ++ ⟨.mark .openParen, ⟨5, 1, 6⟩, 6⟩ ::
    (inside ++ [⟨.mark .closeParen, ⟨12, 1, 13⟩, 13⟩]), ⟨13, 1, 14⟩⟩
  let g : Group stream.tokens :=
    ⟨before, _, inside, _, [], rfl, rfl, rfl, ⟨by decide, by decide⟩, by simp [before]⟩
  have hstream : tokenize e.format = .ok stream := by decide +kernel
  have hdropped : g.dropFrom e.format = "A && B || C" := by decide +kernel
  obtain ⟨stream', hstream', hnecessary⟩ := ((parentheses_necessary hparse rfl).2 p).2
  obtain rfl : stream = stream' := Except.ok.inj (hstream.symm.trans hstream')
  refine ⟨hparse, rfl, hformat, p, stream, g, hstream, hdropped, ?_, ?_, hnecessary g⟩
  · rw [hdropped]
    decide +kernel
  · rw [hdropped]
    decide +kernel

end Script

end Requirements
