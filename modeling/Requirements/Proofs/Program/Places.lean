import Mathlib.Tactic.Lemma
import Requirements.Diagnostic
import Requirements.Proofs.Grammar.Places
import Requirements.Proofs.Version.RangeForms

/-!
# Where a text is malformed

A text that is no script has a fault in its words or in their order, and either kind is found at a
place of the text. Faults of versions and of ranges have no place. None of them is ever met behind
the lexer: the text of a version or of a range that it has cut off can be read, and what is read is
what the lexer has made of it.
-/

namespace Requirements

/-- A place in a text is determined by its offset. -/
lemma Position.IsPlaceIn.eq_ofOffset {cs : List Char} {p : Position} (h : p.IsPlaceIn cs) :
    p = .ofOffset cs p.offset := by
  have hline := line_start_advanceOver (cs.take p.offset)
  have hcolumn := column_start_advanceOver (cs.take p.offset)
  have hpast : p.offset - cs.length = 0 := Nat.sub_eq_zero_of_le h.offset_le
  rw [← h.line] at hline
  rw [← h.column] at hcolumn
  rw [ofOffset, hline, hcolumn, hpast, Nat.add_zero]

/-! ### Words -/

namespace Lexer

open Text

/-- A fault in the words of a text is found at a place of the text. -/
theorem isPlaceIn_of_tokensFrom (before : List Char) {ctx : Context} {cs : List Char}
    {e : Located LexFault}
    (h : tokensFrom ctx (Position.start.advanceOver before) cs = .error e) :
    e.position.IsPlaceIn (before ++ cs) := by
  induction hlength : cs.length using Nat.strongRecOn generalizing ctx before cs with
  | ind n ih =>
  have hhere := Position.isPlaceIn_advanceOver before cs
  cases cs with
  | nil =>
    rw [tokensFrom] at h
    split at h
    · cases h
    · cases h
      exact hhere
  | cons c cs =>
    cases hpiece : piece ctx c cs with
    | error fault =>
      rw [tokensFrom_cons_of_error _ hpiece] at h
      cases h
      exact hhere
    | ok p =>
      obtain ⟨rest, rfl⟩ := (form_of_piece hpiece).exists_rest
      rw [tokensFrom_cons_of_ok _ hpiece, List.drop_left, p.stop_eq] at h
      have hrest : tokensFrom (ctx.after p.lexeme)
          (Position.start.advanceOver (before ++ c :: p.tail)) rest = .error e := by
        cases htail : tokensFrom (ctx.after p.lexeme)
            (Position.start.advanceOver (before ++ c :: p.tail)) rest with
        | error e' =>
          rw [htail] at h
          exact h
        | ok stream =>
          rw [htail] at h
          cases h
      have hlt : rest.length < n := by
        rw [← hlength, List.length_cons, List.length_append]
        omega
      have hplace := ih rest.length hlt (before ++ c :: p.tail) hrest rfl
      rwa [List.append_assoc, List.cons_append] at hplace

end Lexer

/-- The word that the text of a word is read as, where the text of a version or of a range has to be
read once more. -/
def Lexeme.reread : Lexeme → Except Version.Malformed Lexeme
  | .version v => (Version.parse v.text).map .version
  | .range text _ => (Version.Range.parse text).map (.range text)
  | l => .ok l

/-- A version that can be written is read from its text. -/
lemma Version.IsLiteral.parse_text {v : Version} (h : v.IsLiteral) : parse v.text = .ok v := by
  have hblank : ∀ c ∈ v.text.toList, Text.isBlank c = false := fun c hc =>
    not_isBlank_of_isLiteralChar (h.isLiteralChar_of_mem hc)
  have hmark : dropMark v.text.toList = v.text.toList := by
    obtain ⟨c, cs, hcs, hdigit⟩ := h.exists_cons
    rw [hcs]
    unfold dropMark
    split
    · rename_i hv
      rw [(List.cons.inj hv).1] at hdigit
      cases hdigit
    · rfl
  rw [parse_eq_ok_iff_ofText?, ofText?, Text.trimBlanks_eq_self hblank, hmark, h.literal?]
  simp

namespace Lexer

open Text

/-- A range is cut off with the text that it was read from, in which there is no blank. -/
theorem Form.reread {ctx : Context} {c : Char} {cs : List Char} {p : Piece} (h : Form ctx c cs p)
    {l : Lexeme} (hl : p.lexeme = some l) : l.reread = .ok l := by
  cases h with
  | blank | comma | comment => cases hl
  | openFeatures | openSet | closeSet | quoted | mark =>
    cases hl
    rfl
  | @range c tail rest r _ hchars _ hread =>
    cases hl
    have hblank : ∀ d ∈ c :: tail, isBlank d = false := by
      intro d hd
      have hends := hchars d hd
      simp only [endsRange, Bool.or_eq_false_iff] at hends
      exact hends.1.1
    have hparse : Version.Range.parse (String.ofList (c :: tail)) = .ok r := by
      rw [Version.Range.parse_eq_ok_iff_ofText?, Version.Range.ofText?, String.toList_ofList,
        trimBlanks_eq_self hblank, hread]
    rw [Lexeme.reread, hparse]
    rfl
  | pair _ hpair =>
    cases hl
    rcases pairOperator?_cases hpair with ⟨op, rfl, -⟩ | ⟨op, rfl⟩
    · rfl
    · rfl
  | single _ hsingle =>
    cases hl
    rcases singleOperator?_cases hsingle with rfl | rfl | rfl
    · rfl
    · rfl
    · rfl
  | version _ hliteral =>
    cases hl
    rw [Lexeme.reread, hliteral.parse_text]
    rfl
  | word =>
    cases hl
    unfold wordLexeme
    split
    · rfl
    · rfl

/-- The versions and ranges among tokens cut from a text are read again from their texts. -/
lemma Cuts.reread {s s' : Spot} {tokens : List Token} (h : Cuts s tokens s') :
    ∀ t ∈ tokens, t.lexeme.reread = .ok t.lexeme := by
  induction h with
  | none s => simp
  | @piece ctx position c cs p tokens s hpiece _ ih =>
    intro t ht
    rcases List.mem_append.mp ht with ht | ht
    · obtain ⟨l, hl, rfl⟩ := Piece.mem_tokens_iff.mp ht
      exact (form_of_piece hpiece).reread hl
    · exact ih t ht

end Lexer

/-! ### Texts -/

/-- The tokens of a text and its end are places of the text. -/
theorem standsIn_of_tokenize {source : String} {stream : TokenStream}
    (h : tokenize source = .ok stream) :
    Parser.Feed.StandsIn source.toList ⟨stream.tokens, stream.finish, []⟩ := by
  obtain ⟨ctx, -, hcuts⟩ := Lexer.tokensFrom_ok_iff.mp h
  have hstart : Position.start = Position.start.advanceOver [] := rfl
  refine ⟨fun t ht => (hcuts.standsIn hstart t ht).1.place, ?_⟩
  obtain ⟨cut, hcut, hfinish⟩ := hcuts.exists_append
  obtain rfl : source.toList = cut := by simpa using hcut
  have hfinish : stream.finish = Position.start.advanceOver source.toList := hfinish
  have hplace := Position.isPlaceIn_advanceOver source.toList []
  rw [List.append_nil] at hplace
  rwa [← hfinish] at hplace

/-- Parsing is reading a script from all tokens. -/
lemma TokenStream.toScript_eq_map (stream : TokenStream) :
    stream.toScript =
      (Parser.script.run ⟨stream.tokens, stream.finish, []⟩).map Prod.fst := rfl

/-- A fault in the order of the words is found at a place of the text. -/
theorem TokenStream.isPlaceIn_of_toScript {source : String} {stream : TokenStream}
    (htokens : tokenize source = .ok stream) {e : Located GrammarFault}
    (h : stream.toScript = .error e) : e.position.IsPlaceIn source.toList := by
  rw [stream.toScript_eq_map] at h
  cases hrun : Parser.script.run ⟨stream.tokens, stream.finish, []⟩ with
  | ok r =>
    rw [hrun] at h
    cases h
  | error e' =>
    rw [hrun] at h
    cases h
    exact Parser.script_placed.error (standsIn_of_tokenize htokens) hrun

/-- A fault of a program's text is at a place of the text. -/
lemma Script.isPlaceIn_of_parse {source : String} {e : Located SyntaxFault}
    (h : Script.parse source = .error e) : e.position.IsPlaceIn source.toList := by
  unfold Script.parse at h
  split at h
  · rename_i e' htokens
    cases h
    exact Lexer.isPlaceIn_of_tokensFrom [] htokens
  · rename_i stream htokens
    split at h
    · rename_i e' hscript
      cases h
      exact stream.isPlaceIn_of_toScript htokens hscript
    · cases h

namespace Program

/-- A program is malformed exactly if its text is not parsed. -/
lemma compile_eq_malformed_iff {source : String} {e : Located SyntaxFault} :
    compile source = .error (.malformed e) ↔ Script.parse source = .error e := by
  unfold compile
  split
  · rename_i e' hparse
    rw [hparse, Except.error.injEq, CompileError.malformed.injEq, Except.error.injEq]
  · rename_i s hparse
    rw [hparse]
    split
    · simp
    · simp

/-- A text that is malformed is reported with a place of the text: an offset that is not behind its
end, with the line and the column of that offset. The texts of its versions and ranges are never at
fault: whatever the lexer cuts off as one of them can be read, and is what it is read as. -/
theorem compile_malformed_at_place (source : String) :
    (∀ e, compile source = .error (.malformed e) →
      (CompileError.malformed e).location = .position e.position ∧
        e.position.IsPlaceIn source.toList ∧
        e.position = .ofOffset source.toList e.position.offset) ∧
      ∀ stream, tokenize source = .ok stream →
        ∀ t ∈ stream.tokens, t.lexeme.reread = .ok t.lexeme := by
  refine ⟨fun e he => ?_, fun stream hstream => ?_⟩
  · have hplace := Script.isPlaceIn_of_parse (compile_eq_malformed_iff.mp he)
    exact ⟨rfl, hplace, hplace.eq_ofOffset⟩
  · obtain ⟨ctx, -, hcuts⟩ := Lexer.tokensFrom_ok_iff.mp hstream
    exact hcuts.reread

/-- A tag that is used again on the second line is reported there. Before it stand a version and a
range, which can be read again. -/
theorem compile_malformed_at_place_of_tagCollision :
    let source := "choice C = A == 1.0 as :x ||\n B in [2-3] as :x;"
    let e : Located SyntaxFault := ⟨.grammatical (.tagCollision "x" 1), ⟨45, 2, 17⟩⟩
    compile source = .error (.malformed e) ∧
      (CompileError.malformed e).location = .position ⟨45, 2, 17⟩ ∧
      e.position.IsPlaceIn source.toList ∧
      ∃ stream, tokenize source = .ok stream ∧ stream.tokens.length = 19 ∧
        ∀ t ∈ stream.tokens, t.lexeme.reread = .ok t.lexeme := by
  intro source e
  have herror : compile source = .error (.malformed e) := by decide +kernel
  obtain ⟨hplace, hwords⟩ := compile_malformed_at_place source
  obtain ⟨hlocation, hin, -⟩ := hplace e herror
  have hcount : (tokenize source).toOption.map (fun stream => stream.tokens.length) = some 19 := by
    decide +kernel
  obtain ⟨stream, hstream, hlength⟩ := Option.map_eq_some_iff.mp hcount
  have htokens : tokenize source = .ok stream := by
    cases htokens : tokenize source with
    | error e =>
      rw [htokens] at hstream
      cases hstream
    | ok stream' =>
      rw [htokens] at hstream
      cases hstream
      rfl
  exact ⟨herror, hlocation, hin, stream, htokens, hlength, hwords stream htokens⟩

end Program

end Requirements
