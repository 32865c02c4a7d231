import Mathlib.Tactic.Lemma
import Requirements.Proofs.Version.Reading
import Requirements.Token.Lexer

/-!
# Cutting a text into pieces

A text has tokens exactly if one piece after another can be cut off its front until nothing is left
and no feature list is open. The cuts are related to the text that really remains, so what is known
of the pieces of one text carries over to another text that goes on differently.
-/

namespace Requirements

namespace Lexer

open Text

/-- A place in a text that is being cut: the context and the position there, and the rest of the
text. -/
structure Spot where
  context : Context
  position : Position
  rest : List Char

namespace Piece

/-- The place behind a piece that starts with `c`. -/
def stop (p : Piece) (c : Char) (position : Position) : Position :=
  position.advanceOver (c :: p.tail)

/-- The token that a piece gives, if it is a word. -/
def tokens (p : Piece) (c : Char) (position : Position) : List Token :=
  (p.lexeme.map fun l => ⟨l, position, (p.stop c position).offset + p.overhang⟩).toList

/-- A piece with a lexeme gives one token, any other piece none. -/
lemma map_lexeme_tokens (p : Piece) (c : Char) (position : Position) :
    (p.tokens c position).map Token.lexeme = p.lexeme.toList := by
  cases hp : p.lexeme with
  | none => simp [tokens, hp]
  | some l => simp [tokens, hp]

/-- The token of a piece starts where the piece does. -/
lemma start_of_mem_tokens {p : Piece} {c : Char} {position : Position} {t : Token}
    (h : t ∈ p.tokens c position) : t.start = position := by
  cases hp : p.lexeme with
  | none => simp [tokens, hp] at h
  | some l =>
    simp only [tokens, hp, Option.map_some, Option.toList_some, List.mem_singleton] at h
    rw [h]

end Piece

/-- Cutting pieces off the text at one place gives the tokens up to another place. -/
inductive Cuts : Spot → List Token → Spot → Prop
  | none (s : Spot) : Cuts s [] s
  | piece {ctx : Context} {position : Position} {c : Char} {cs : List Char} {p : Piece}
      {tokens : List Token} {s : Spot} (hpiece : piece ctx c cs = .ok p)
      (htail : Cuts ⟨ctx.after p.lexeme, p.stop c position, cs.drop p.tail.length⟩ tokens s) :
      Cuts ⟨ctx, position, c :: cs⟩ (p.tokens c position ++ tokens) s

namespace Cuts

/-- Texts that are cut one after the other are cut together. -/
lemma trans {s s' s'' : Spot} {tokens more : List Token} (h : Cuts s tokens s')
    (h' : Cuts s' more s'') : Cuts s (tokens ++ more) s'' := by
  induction h with
  | none s => exact h'
  | piece hpiece _ ih =>
    rw [List.append_assoc]
    exact .piece hpiece (ih h')

end Cuts

/-- A piece is cut off, and what follows is cut behind it. -/
lemma tokensFrom_cons_of_ok {ctx : Context} (position : Position) {c : Char} {cs : List Char}
    {p : Piece} (h : piece ctx c cs = .ok p) :
    tokensFrom ctx position (c :: cs) =
      (tokensFrom (ctx.after p.lexeme) (p.stop c position) (cs.drop p.tail.length)).map
        fun stream => { stream with tokens := p.tokens c position ++ stream.tokens } := by
  rw [tokensFrom]
  simp only [h]
  rw [show position.advanceOver (c :: p.tail) = p.stop c position from rfl]
  cases tokensFrom (ctx.after p.lexeme) (p.stop c position) (cs.drop p.tail.length) with
  | error e => rfl
  | ok stream =>
    cases hword : p.lexeme with
    | none => simp [Piece.tokens, Except.map, hword]
    | some l => simp [Piece.tokens, Except.map, hword]

/-- Where no piece can be cut off, this fault is reported. -/
lemma tokensFrom_cons_of_error {ctx : Context} (position : Position) {c : Char} {cs : List Char}
    {fault : LexFault} (h : piece ctx c cs = .error fault) :
    tokensFrom ctx position (c :: cs) = .error ⟨fault, position⟩ := by
  rw [tokensFrom, h]

/-- The tokens of a text are what cutting it to its end gives. -/
theorem tokensFrom_ok_iff {ctx : Context} {position : Position} {cs : List Char}
    {stream : TokenStream} :
    tokensFrom ctx position cs = .ok stream ↔
      ∃ ctx' : Context, ctx'.depth = 0 ∧
        Cuts ⟨ctx, position, cs⟩ stream.tokens ⟨ctx', stream.finish, []⟩ := by
  constructor
  · intro h
    induction hlength : cs.length using Nat.strongRecOn generalizing ctx position cs stream with
    | ind n ih =>
    cases cs with
    | nil =>
      rw [tokensFrom] at h
      split at h
      · rename_i hdepth
        cases h
        exact ⟨ctx, hdepth, .none _⟩
      · cases h
    | cons c cs =>
      cases hpiece : piece ctx c cs with
      | error fault =>
        rw [tokensFrom_cons_of_error position hpiece] at h
        cases h
      | ok p =>
        rw [tokensFrom_cons_of_ok position hpiece] at h
        cases htail : tokensFrom (ctx.after p.lexeme) (p.stop c position)
            (cs.drop p.tail.length) with
        | error e =>
          rw [htail] at h
          cases h
        | ok rest =>
          rw [htail] at h
          cases h
          have hlt : (cs.drop p.tail.length).length < n := by
            rw [List.length_drop, ← hlength, List.length_cons]
            omega
          obtain ⟨ctx', hdepth, hcuts⟩ := ih _ hlt htail rfl
          exact ⟨ctx', hdepth, .piece hpiece hcuts⟩
  · rintro ⟨ctx', hdepth, hcuts⟩
    obtain ⟨tokens, finish⟩ := stream
    simp only at hcuts
    generalize hs : (⟨ctx, position, cs⟩ : Spot) = s at hcuts
    generalize hs' : (⟨ctx', finish, []⟩ : Spot) = s' at hcuts
    induction hcuts generalizing ctx position cs with
    | none s =>
      subst hs
      cases hs'
      rw [tokensFrom, if_pos hdepth]
    | piece hpiece _ ih =>
      cases hs
      rw [tokensFrom_cons_of_ok _ hpiece, ih rfl hs']
      rfl

/-! ### The words that are cut -/

/-- The text does not continue a name. -/
def EndsName (cs : List Char) : Prop :=
  ∀ c, cs.head? = some c → isWord c = false ∧ c ≠ ':'

/-- No name goes on where a name ends. -/
lemma nameTail_of_endsName {cs : List Char} (h : EndsName cs) : nameTail cs = [] := by
  unfold nameTail
  split
  · exact absurd rfl (h ':' rfl).2
  · rename_i c _ _
    rw [if_neg (by simp [(h c rfl).1])]
  · rfl

/-- A name goes on with the characters of words. -/
lemma nameTail_cons {c : Char} (cs : List Char) (h : isWord c = true) :
    nameTail (c :: cs) = c :: nameTail cs := by
  have hcolon : c ≠ ':' := by
    rintro rfl
    exact absurd h (by decide)
  rw [nameTail.eq_def]
  split
  · rename_i heq
    exact absurd (List.cons.inj heq).1 hcolon
  · rename_i heq
    cases heq
    rw [if_pos h]
  · rename_i heq
    cases heq

/-- The part of a text that continues a name does so in any text, as long as it is not continued
there. -/
theorem nameTail_append (cs : List Char) {rest : List Char} (h : EndsName rest) :
    nameTail (nameTail cs ++ rest) = nameTail cs := by
  fun_induction nameTail cs with
  | case1 c cs hword ih => simp [nameTail, hword, ih]
  | case2 c cs hword => exact nameTail_of_endsName h
  | case3 c cs _ hword ih => rw [List.cons_append, nameTail_cons _ hword, ih]
  | case4 c cs hcolon hword => exact nameTail_of_endsName h
  | case5 => exact nameTail_of_endsName h

end Lexer

/-- The text is one that is cut off as a name. -/
def IsName (s : String) : Prop :=
  ∃ c cs, s.toList = c :: cs ∧ Text.isNameStart c = true ∧ Lexer.nameTail cs = cs ∧
    Keyword.ofText? s = none

/-- The word is one that can be cut off a text: a name is written like one, and versions and the
bounds of ranges are literals. -/
def Lexeme.Proper : Lexeme → Prop
  | .name s => IsName s
  | .version v => v.IsLiteral
  | .range _ r => r.IsLiteral
  | _ => True

namespace Lexer

open Text

/-- An operator of two characters compares or connects. -/
theorem pairOperator?_cases {c d : Char} {l : Lexeme} (h : pairOperator? c d = some l) :
    (∃ op, l = .compare op ∧ op ≠ .lt ∧ op ≠ .gt) ∨ ∃ op, l = .logical op := by
  unfold pairOperator? at h
  split_ifs at h <;> cases h <;> simp

/-- The operators of one character are two comparisons and the sign of definitions. -/
lemma singleOperator?_cases {c : Char} {l : Lexeme} (h : singleOperator? c = some l) :
    l = .compare .lt ∨ l = .compare .gt ∨ l = .mark .assign := by
  unfold singleOperator? at h
  split_ifs at h <;> cases h <;> simp

/-- Operators of two characters are proper words. -/
lemma proper_of_pairOperator? {c d : Char} {l : Lexeme} (h : pairOperator? c d = some l) :
    l.Proper := by
  rcases pairOperator?_cases h with ⟨op, rfl, -⟩ | ⟨op, rfl⟩ <;> trivial

/-- Operators of one character are proper words. -/
lemma proper_of_singleOperator? {c : Char} {l : Lexeme} (h : singleOperator? c = some l) :
    l.Proper := by
  rcases singleOperator?_cases h with rfl | rfl | rfl <;> trivial

/-- Operators are proper words. -/
lemma proper_of_operator? {c : Char} {cs : List Char} {p : Piece} (h : operator? c cs = some p)
    {l : Lexeme} (hl : p.lexeme = some l) : l.Proper := by
  unfold operator? at h
  split at h
  · rename_i hpair
    cases h
    cases hl
    obtain ⟨d, -, hpair⟩ := Option.bind_eq_some_iff.mp hpair
    exact proper_of_pairOperator? hpair
  · split at h
    · rename_i hsingle
      cases h
      cases hl
      exact proper_of_singleOperator? hsingle
    · obtain ⟨m, -, rfl⟩ := Option.map_eq_some_iff.mp h
      cases hl
      trivial

/-- The words of a version set are proper: its ranges are read from the text. -/
lemma proper_of_setPiece {c : Char} {cs : List Char} {p : Piece} (h : setPiece c cs = .ok p)
    {l : Lexeme} (hl : p.lexeme = some l) : l.Proper := by
  unfold setPiece at h
  split_ifs at h
  · cases h
    cases hl
  · cases h
    cases hl
    trivial
  · simp only at h
    split at h
    · rename_i r hread
      cases h
      cases hl
      exact Version.Range.isLiteral_of_ofChars? hread
    · cases h

/-- The words that start with the sign of comments are proper. -/
lemma proper_of_hashPiece {ctx : Context} {cs : List Char} {p : Piece}
    (h : hashPiece ctx cs = .ok p) {l : Lexeme} (hl : p.lexeme = some l) : l.Proper := by
  unfold hashPiece at h
  split_ifs at h
  · split at h
    · cases h
      cases hl
      trivial
    · cases h
  · cases h
    cases hl

/-- A version is cut off with the text that it was read from. -/
theorem proper_of_versionPiece {c : Char} {cs : List Char} {l : Lexeme}
    (hl : (versionPiece c cs).lexeme = some l) : l.Proper := by
  unfold versionPiece at hl
  split at hl
  · rename_i components rest hread
    cases hl
    obtain ⟨text, htext, hread', -⟩ := Version.exists_literalFrom? hread
    obtain ⟨d, tail, rfl, -⟩ := Version.exists_of_literalFrom? hread'
    obtain ⟨rfl, rfl⟩ := List.cons.inj htext
    simpa [Lexeme.Proper, Version.IsLiteral] using hread'
  · cases hl

/-- A word is a keyword or a name that can be written. -/
lemma proper_wordLexeme {c : Char} (cs : List Char) (hstart : isNameStart c = true) :
    (wordLexeme (String.ofList (c :: nameTail cs))).Proper := by
  unfold wordLexeme
  split
  · trivial
  · rename_i hword
    have htail : nameTail (nameTail cs ++ []) = nameTail cs :=
      nameTail_append cs (by simp [EndsName])
    rw [List.append_nil] at htail
    exact ⟨c, nameTail cs, by simp, hstart, htail, hword⟩

/-- The words outside version sets are proper. -/
lemma proper_of_plainPiece {ctx : Context} {c : Char} {cs : List Char} {p : Piece}
    (h : plainPiece ctx c cs = .ok p) {l : Lexeme} (hl : p.lexeme = some l) : l.Proper := by
  unfold plainPiece at h
  split at h
  · cases h
    cases hl
  split at h
  · exact proper_of_hashPiece h hl
  split at h
  · split at h
    · cases h
      cases hl
      trivial
    · cases h
  split at h
  · split at h
    · cases h
      cases hl
      trivial
    · cases h
  split at h
  · rename_i hoperator
    cases h
    exact proper_of_operator? hoperator hl
  split at h
  · cases h
    exact proper_of_versionPiece hl
  split at h
  · rename_i hstart
    cases h
    cases hl
    exact proper_wordLexeme cs hstart
  · cases h

/-- Every word cut from a text is proper. -/
lemma proper_of_piece {ctx : Context} {c : Char} {cs : List Char} {p : Piece}
    (h : piece ctx c cs = .ok p) {l : Lexeme} (hl : p.lexeme = some l) : l.Proper := by
  unfold piece at h
  split at h
  · exact proper_of_setPiece h hl
  · exact proper_of_plainPiece h hl

/-- Every word that is cut off a text is one that can be cut off a text. -/
theorem Cuts.proper {s s' : Spot} {tokens : List Token} (h : Cuts s tokens s') :
    ∀ t ∈ tokens, t.lexeme.Proper := by
  induction h with
  | none s => simp
  | @piece ctx position c cs p tokens s hpiece _ ih =>
    intro t ht
    rcases List.mem_append.mp ht with ht | ht
    · have hlexeme : t.lexeme ∈ p.lexeme.toList := by
        rw [← p.map_lexeme_tokens c position]
        exact List.mem_map_of_mem ht
      exact proper_of_piece hpiece (Option.mem_toList.mp hlexeme)
    · exact ih t ht

end Lexer

/-- Every word of a text is one that can be cut off a text. -/
theorem proper_of_tokenize {source : String} {stream : TokenStream}
    (h : tokenize source = .ok stream) : ∀ t ∈ stream.tokens, t.lexeme.Proper := by
  obtain ⟨ctx, -, hcuts⟩ := Lexer.tokensFrom_ok_iff.mp h
  exact hcuts.proper

end Requirements
