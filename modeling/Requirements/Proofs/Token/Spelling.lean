import Mathlib.Tactic.Lemma
import Requirements.Proofs.Grammar.Printing
import Requirements.Proofs.Text.Blank
import Requirements.Proofs.Token.Cutting

/-!
# Texts that spell words

A text *spells* words in a region if the lexer cuts it into them wherever it stands in that region.
Since a piece ends only where the next character says so, this depends on what follows the text.
Here every word, list and version set that is printed is shown to spell what was meant.
-/

namespace Requirements

/-- Without line breaks the line stays. -/
lemma Position.line_advanceOver (p : Position) {cs : List Char} (h : '\n' ∉ cs) :
    (p.advanceOver cs).line = p.line := by
  induction cs generalizing p with
  | nil => rfl
  | cons c cs ih =>
    rw [List.mem_cons, not_or] at h
    rw [advanceOver_cons, ih _ h.2, advance, if_neg (Ne.symm h.1)]

namespace Lexer

open Text

/-! ### Regions -/

/-- What the pieces of a text depend on, apart from a name that ends in front of it. -/
structure Region where
  inSet : Bool
  depth : Nat

/-- The region of a context. -/
def Context.region (ctx : Context) : Region := ⟨ctx.inSet, ctx.depth⟩

namespace Region

/-- Outside version sets and feature lists. -/
def plain : Region := ⟨false, 0⟩

/-- Inside the parentheses of a feature list. -/
def features : Region := ⟨false, 1⟩

/-- Inside the brackets of a version set. -/
def set : Region := ⟨true, 0⟩

/-- The region behind a piece. -/
def after (r : Region) (l : Option Lexeme) : Region :=
  (Context.after ⟨r.inSet, r.depth, false⟩ l).region

end Region

/-- The region changes with the word, whatever else the context knows. -/
lemma Context.region_after (ctx : Context) (l : Option Lexeme) :
    (ctx.after l).region = ctx.region.after l := by
  unfold Region.after Context.after
  split <;> rfl

/-! ### Spelled words -/

/-- In the region `r`, the text `cs` is cut into `words` on one line if it goes on with `rest`, and
then the text is in the region `r'`. -/
structure Spells (r r' : Region) (cs rest : List Char) (words : List Lexeme) : Prop where
  line : '\n' ∉ cs
  cuts : ∀ (ctx : Context) (position : Position), ctx.region = r →
    ∃ (ctx' : Context) (tokens : List Token), ctx'.region = r' ∧
      Cuts ⟨ctx, position, cs ++ rest⟩ tokens ⟨ctx', position.advanceOver cs, rest⟩ ∧
      tokens.map Token.lexeme = words ∧ ∀ t ∈ tokens, t.start.line = position.line

namespace Spells

variable {r r' r'' : Region} {cs ds rest : List Char} {words more : List Lexeme}

/-- The empty text spells no words. -/
lemma nil (r : Region) (rest : List Char) : Spells r r [] rest [] where
  line := by simp
  cuts ctx _ hctx := ⟨ctx, [], hctx, .none _, rfl, by simp⟩

/-- What two texts spell, one after the other, they spell together. -/
lemma append (h : Spells r r' cs (ds ++ rest) words) (h' : Spells r' r'' ds rest more) :
    Spells r r'' (cs ++ ds) rest (words ++ more) where
  line := by
    rw [List.mem_append, not_or]
    exact ⟨h.line, h'.line⟩
  cuts ctx position hctx := by
    obtain ⟨ctx', tokens, hctx', hcuts, hwords, hlines⟩ := h.cuts ctx position hctx
    obtain ⟨ctx'', tokens', hctx'', hcuts', hwords', hlines'⟩ :=
      h'.cuts ctx' (position.advanceOver cs) hctx'
    refine ⟨ctx'', tokens ++ tokens', hctx'', ?_, ?_, ?_⟩
    · rw [List.append_assoc, Position.advanceOver_append]
      exact hcuts.trans hcuts'
    · rw [List.map_append, hwords, hwords']
    · intro t ht
      rcases List.mem_append.mp ht with ht | ht
      · exact hlines t ht
      · rw [hlines' t ht, Position.line_advanceOver position h.line]

/-- A text that is one piece. -/
theorem of_piece {c : Char} {tail : List Char} {p : Piece} (hline : '\n' ∉ c :: tail)
    (htail : p.tail = tail)
    (h : ∀ ctx : Context, ctx.region = r → piece ctx c (tail ++ rest) = .ok p) :
    Spells r (r.after p.lexeme) (c :: tail) rest p.lexeme.toList where
  line := hline
  cuts ctx position hctx := by
    refine ⟨ctx.after p.lexeme, p.tokens c position, ?_, ?_, p.map_lexeme_tokens c position, ?_⟩
    · rw [ctx.region_after, hctx]
    · have hcuts : Cuts ⟨ctx, position, c :: (tail ++ rest)⟩ (p.tokens c position ++ [])
          ⟨ctx.after p.lexeme, p.stop c position, (tail ++ rest).drop p.tail.length⟩ :=
        .piece (h ctx hctx) (.none _)
      rw [List.append_nil, Piece.stop, htail, List.drop_left] at hcuts
      exact hcuts
    · intro t ht
      rw [Piece.start_of_mem_tokens ht]

/-- A text that is two pieces, of which the second may depend on the first. -/
theorem of_pieces {c d : Char} {tail tail' : List Char} {p q : Piece}
    (hline : '\n' ∉ (c :: tail) ++ d :: tail') (hp : p.tail = tail) (hq : q.tail = tail')
    (hfirst : ∀ ctx : Context, ctx.region = r →
      piece ctx c (tail ++ d :: (tail' ++ rest)) = .ok p)
    (hsecond : ∀ ctx : Context, ctx.region = r →
      piece (ctx.after p.lexeme) d (tail' ++ rest) = .ok q) :
    Spells r ((r.after p.lexeme).after q.lexeme) ((c :: tail) ++ d :: tail') rest
      (p.lexeme.toList ++ q.lexeme.toList) where
  line := hline
  cuts ctx position hctx := by
    refine ⟨(ctx.after p.lexeme).after q.lexeme,
      p.tokens c position ++ q.tokens d (p.stop c position), ?_, ?_, ?_, ?_⟩
    · rw [Context.region_after, Context.region_after, hctx]
    · have htail : Cuts ⟨ctx.after p.lexeme, p.stop c position, d :: (tail' ++ rest)⟩
          (q.tokens d (p.stop c position))
          ⟨(ctx.after p.lexeme).after q.lexeme, q.stop d (p.stop c position), rest⟩ := by
        have hcuts := Cuts.piece (hsecond ctx hctx) (.none ⟨_, q.stop d (p.stop c position), _⟩)
        rwa [List.append_nil, hq, List.drop_left] at hcuts
      have hcuts := Cuts.piece (p := p) (hfirst ctx hctx) (by rw [hp, List.drop_left]; exact htail)
      rw [List.append_assoc, Position.advanceOver_append]
      simpa [Piece.stop, hp, hq] using hcuts
    · rw [List.map_append, p.map_lexeme_tokens, q.map_lexeme_tokens]
    · rw [List.mem_append, not_or] at hline
      intro t ht
      rcases List.mem_append.mp ht with ht | ht
      · rw [Piece.start_of_mem_tokens ht]
      · rw [Piece.start_of_mem_tokens ht, Piece.stop, hp, Position.line_advanceOver _ hline.1]

end Spells

/-! ### Blanks, operators and marks -/

/-- A blank spells nothing. -/
lemma spells_blank (r : Region) (rest : List Char) : Spells r r [' '] rest [] := by
  refine .of_piece (p := ⟨none, [], 0⟩) (by decide) rfl fun ctx _ => ?_
  unfold piece
  split <;> rfl

/-- Outside version sets, pieces are cut in the plain way. -/
lemma piece_outside {ctx : Context} {depth : Nat} (h : ctx.region = ⟨false, depth⟩) (c : Char)
    (cs : List Char) : piece ctx c cs = plainPiece ctx c cs := by
  have hset : ctx.inSet = false := congrArg Region.inSet h
  unfold piece
  rw [hset]
  rfl

/-- A line break is cut into no token. -/
lemma cuts_newline {ctx : Context} (hctx : ctx.region = .plain) (position : Position)
    (rest : List Char) :
    Cuts ⟨ctx, position, '\n' :: rest⟩ [] ⟨ctx.after none, position.advance '\n', rest⟩ :=
  .piece (p := ⟨none, [], 0⟩) (piece_outside hctx _ _) (.none _)

/-- An operator spells its word, if its characters are cut as one piece. -/
lemma spells_operator (depth : Nat) {symbol : String} {l : Lexeme} {c : Char}
    {tail rest : List Char} (hsymbol : symbol.toList = c :: tail) (hline : '\n' ∉ c :: tail)
    (hplain : ∀ ctx, plainPiece ctx c (tail ++ rest) = .ok ⟨some l, tail, 0⟩)
    (hafter : Region.after ⟨false, depth⟩ (some l) = ⟨false, depth⟩) :
    Spells ⟨false, depth⟩ ⟨false, depth⟩ symbol.toList rest [l] := by
  rw [hsymbol]
  have hspells : Spells ⟨false, depth⟩ (Region.after ⟨false, depth⟩ (some l)) (c :: tail) rest
      [l] := by
    refine .of_piece (p := ⟨some l, tail, 0⟩) hline rfl fun ctx hctx => ?_
    rw [piece_outside hctx, hplain]
  rwa [hafter] at hspells

/-- The connectives spell themselves. -/
lemma spells_logical (depth : Nat) (op : LogicalOp) (rest : List Char) :
    Spells ⟨false, depth⟩ ⟨false, depth⟩ op.symbol.toList rest [.logical op] := by
  cases op <;> exact spells_operator depth rfl (by decide) (fun _ => rfl) rfl

/-- A blank keeps an operator of one character apart from what follows. -/
theorem spells_compare (depth : Nat) (op : CompareOp) (rest : List Char) :
    Spells ⟨false, depth⟩ ⟨false, depth⟩ op.symbol.toList (' ' :: rest) [.compare op] := by
  cases op <;> exact spells_operator depth rfl (by decide) (fun _ => rfl) rfl

/-- A mark that is no beginning of an operator is one alone. -/
lemma operator?_mark {m : Mark} (hm : m ≠ .assign) (rest : List Char) :
    operator? m.char rest = some ⟨some (.mark m), [], 0⟩ := by
  cases rest with
  | nil => cases m <;> first | rfl | exact absurd rfl hm
  | cons c rest => cases m <;> first | rfl | exact absurd rfl hm

/-- A mark is cut as one piece. -/
lemma plainPiece_mark (ctx : Context) {m : Mark} (hm : m ≠ .assign) (rest : List Char) :
    plainPiece ctx m.char rest = .ok ⟨some (.mark m), [], 0⟩ := by
  have hoperator := operator?_mark hm rest
  unfold plainPiece
  rw [if_neg (by cases m <;> decide), if_neg (by cases m <;> decide),
    if_neg (by cases m <;> decide), if_neg (by cases m <;> decide), hoperator]

/-- A mark spells itself, and parentheses count for the region behind. -/
lemma spells_mark (depth : Nat) {m : Mark} (hm : m ≠ .assign) (rest : List Char) :
    Spells ⟨false, depth⟩ (Region.after ⟨false, depth⟩ (some (.mark m))) [m.char] rest
      [.mark m] := by
  refine .of_piece (p := ⟨some (.mark m), [], 0⟩) (by cases m <;> decide) rfl fun ctx hctx => ?_
  rw [piece_outside hctx, List.nil_append, plainPiece_mark ctx hm]

/-- Outside of parentheses, a mark spells itself. -/
lemma spells_plain_mark {m : Mark} (hm : m ≠ .assign) (rest : List Char) :
    Spells .plain .plain [m.char] rest [.mark m] := by
  have hspells := spells_mark 0 hm rest
  cases m <;> exact hspells

/-- A text between two marks. -/
theorem spells_between {opening closing : Mark} (hopening : opening ≠ .assign)
    (hclosing : closing ≠ .assign) {text rest : List Char} {words : List Lexeme}
    (h : Spells .plain .plain text (closing.char :: rest) words) :
    Spells .plain .plain (opening.char :: (text ++ [closing.char])) rest
      (.mark opening :: (words ++ [.mark closing])) :=
  (spells_plain_mark hopening _).append (h.append (spells_plain_mark hclosing rest))

/-- The sign of definitions spells itself in front of a blank. -/
lemma spells_assign (depth : Nat) (rest : List Char) :
    Spells ⟨false, depth⟩ ⟨false, depth⟩ ['='] (' ' :: rest) [.mark .assign] :=
  .of_piece (p := ⟨some (.mark .assign), [], 0⟩) (by decide) rfl
    fun ctx hctx => piece_outside hctx _ _

/-! ### Names, keywords and versions -/

/-- The characters of suffixes are characters of words. -/
lemma isWord_of_isSuffixChar {c : Char} (h : isSuffixChar c = true) : isWord c = true := by
  rw [isWord, if_pos (toNat_of_isSuffixChar h).2, h]

/-- No operator starts with a character of a suffix. -/
lemma operator?_of_isSuffixChar {c : Char} (h : isSuffixChar c = true) (cs : List Char) :
    operator? c cs = none := by
  have hne {d : Char} (hd : isSuffixChar d = false) : c ≠ d := ne_of_isSuffixChar h hd
  have hpair (d : Char) : pairOperator? c d = none := by
    simp [pairOperator?, hne (d := '<') rfl, hne (d := '>') rfl, hne (d := '=') rfl,
      hne (d := '!') rfl, hne (d := '&') rfl, hne (d := '|') rfl, hne (d := '^') rfl]
  have hsingle : singleOperator? c = none := by
    simp [singleOperator?, hne (d := '<') rfl, hne (d := '>') rfl, hne (d := '=') rfl]
  have hmark : Mark.ofChar? c = none := by
    refine List.find?_eq_none.mpr fun m _ => ?_
    have hchar : c ≠ m.char := hne (by cases m <;> rfl)
    simpa using hchar.symm
  unfold operator?
  cases cs with
  | nil => simp [hsingle, hmark]
  | cons d cs => simp [hpair, hsingle, hmark]

/-- A text that starts with a letter, a digit or an underscore starts with a word or a version. -/
theorem plainPiece_of_isSuffixChar (ctx : Context) {c : Char} (h : isSuffixChar c = true)
    (cs : List Char) :
    plainPiece ctx c cs =
      if isDigit c then .ok (versionPiece c cs)
      else .ok ⟨some (wordLexeme (String.ofList (c :: nameTail cs))), nameTail cs, 0⟩ := by
  have hne {d : Char} (hd : isSuffixChar d = false) : c ≠ d := ne_of_isSuffixChar h hd
  have hquote : ¬(c = '\'' ∨ c = '"') := not_or.mpr ⟨hne rfl, hne rfl⟩
  unfold plainPiece
  rw [if_neg (by simp [not_isBlank_of_isSuffixChar h]), if_neg (hne rfl), if_neg (hne rfl),
    if_neg hquote, operator?_of_isSuffixChar h cs]
  simp only [isSuffixChar, Bool.or_eq_true] at h
  split_ifs with hdigit hstart
  · rfl
  · rfl
  · rcases h with h | h
    · exact absurd h hstart
    · exact absurd h hdigit

/-- A name goes on with characters of words and colons. -/
lemma isWord_or_colon_of_mem_nameTail {cs : List Char} {d : Char} (h : d ∈ nameTail cs) :
    isWord d = true ∨ d = ':' := by
  fun_induction nameTail cs with
  | case1 c cs hword ih =>
    simp only [List.mem_cons] at h
    rcases h with rfl | rfl | rfl | h
    · exact .inr rfl
    · exact .inr rfl
    · exact .inl hword
    · exact ih h
  | case2 c cs hword => simp at h
  | case3 c cs _ hword ih =>
    rcases List.mem_cons.mp h with rfl | h
    · exact .inl hword
    · exact ih h
  | case4 c cs _ hword => simp at h
  | case5 => simp at h

/-- A word is cut as one piece where a name ends. -/
lemma plainPiece_word (ctx : Context) {s : String} {c : Char} {cs : List Char}
    (hs : s.toList = c :: cs) (hstart : isNameStart c = true) (htail : nameTail cs = cs)
    {rest : List Char} (hrest : EndsName rest) :
    plainPiece ctx c (cs ++ rest) = .ok ⟨some (wordLexeme s), cs, 0⟩ := by
  have hsuffix : isSuffixChar c = true := by simp [isSuffixChar, hstart]
  have hread : nameTail (cs ++ rest) = cs := by
    have := nameTail_append cs hrest
    rwa [htail] at this
  rw [plainPiece_of_isSuffixChar ctx hsuffix, hread, if_neg
    (by simp [Version.not_isDigit_of_isNameStart hstart]), ← hs, String.ofList_toList]

/-- A word has no line break. -/
lemma not_mem_word {c : Char} {cs : List Char} (hstart : isNameStart c = true)
    (htail : nameTail cs = cs) : '\n' ∉ c :: cs := by
  rw [List.mem_cons, not_or]
  constructor
  · rintro rfl
    exact absurd hstart (by decide)
  · intro hmem
    rw [← htail] at hmem
    rcases isWord_or_colon_of_mem_nameTail hmem with h | h
    · exact absurd h (by decide)
    · exact absurd h (by decide)

/-- A text written like a name spells its word, be it a name or a keyword. -/
theorem spells_word (depth : Nat) {s : String} {c : Char} {cs : List Char} (hs : s.toList = c :: cs)
    (hstart : isNameStart c = true) (htail : nameTail cs = cs) {rest : List Char}
    (hrest : EndsName rest) :
    Spells ⟨false, depth⟩ ⟨false, depth⟩ s.toList rest [wordLexeme s] := by
  have hregion : Region.after ⟨false, depth⟩ (some (wordLexeme s)) = ⟨false, depth⟩ := by
    unfold wordLexeme
    split <;> rfl
  have hspells : Spells ⟨false, depth⟩ (Region.after ⟨false, depth⟩ (some (wordLexeme s)))
      (c :: cs) rest [wordLexeme s] := by
    refine .of_piece (p := ⟨some (wordLexeme s), cs, 0⟩) (not_mem_word hstart htail) rfl
      fun ctx hctx => ?_
    rw [piece_outside hctx, plainPiece_word ctx hs hstart htail hrest]
  rw [hs]
  rwa [hregion] at hspells

/-- A name that can be written is read as a name, not as a keyword. -/
lemma wordLexeme_of_isName {s : String} (h : IsName s) : wordLexeme s = .name s := by
  obtain ⟨-, -, -, -, -, hword⟩ := h
  unfold wordLexeme
  rw [hword]

/-- A name spells itself where a name ends. -/
lemma spells_name (depth : Nat) {s : String} (h : IsName s) {rest : List Char}
    (hrest : EndsName rest) : Spells ⟨false, depth⟩ ⟨false, depth⟩ s.toList rest [.name s] := by
  have hlexeme := wordLexeme_of_isName h
  obtain ⟨c, cs, hs, hstart, htail, -⟩ := h
  exact hlexeme ▸ spells_word depth hs hstart htail hrest

/-- A keyword spells itself where a name ends. -/
lemma spells_keyword (depth : Nat) (k : Keyword) {rest : List Char} (hrest : EndsName rest) :
    Spells ⟨false, depth⟩ ⟨false, depth⟩ k.text.toList rest [.keyword k] := by
  have hlexeme : wordLexeme k.text = .keyword k := by cases k <;> rfl
  obtain ⟨c, cs, hs, hstart, htail⟩ :
      ∃ c cs, k.text.toList = c :: cs ∧ isNameStart c = true ∧ nameTail cs = cs := by
    cases k <;> exact ⟨_, _, rfl, rfl, rfl⟩
  exact hlexeme ▸ spells_word depth hs hstart htail hrest

/-- A version that can be written is cut as one piece where a version ends. -/
lemma plainPiece_version (ctx : Context) {v : Version} (h : v.IsLiteral) {c : Char}
    {cs : List Char} (hcs : v.text.toList = c :: cs) {rest : List Char}
    (hrest : Version.EndsLiteral rest) :
    plainPiece ctx c (cs ++ rest) = .ok ⟨some (.version v), cs, 0⟩ := by
  obtain ⟨d, ds, hds, hdigit⟩ := h.exists_cons
  obtain ⟨rfl, rfl⟩ := List.cons.inj (hds.symm.trans hcs)
  have hsuffix : isSuffixChar d = true := by simp [isSuffixChar, hdigit]
  have hread := Version.literalFrom?_append h hrest
  rw [hcs, List.cons_append, List.nil_append] at hread
  have htext : String.ofList (d :: ds) = v.text := by rw [← hcs, String.ofList_toList]
  rw [plainPiece_of_isSuffixChar ctx hsuffix, if_pos hdigit]
  simp [versionPiece, hread, htext]

/-- A version spells itself where a version ends. -/
lemma spells_version (depth : Nat) {v : Version} (h : v.IsLiteral) {rest : List Char}
    (hrest : Version.EndsLiteral rest) :
    Spells ⟨false, depth⟩ ⟨false, depth⟩ v.toText.toList rest [.version v] := by
  obtain ⟨c, cs, hcs, -⟩ := h.exists_cons
  have hline : '\n' ∉ c :: cs := by
    rw [← hcs]
    exact fun hmem => h.ne_of_mem hmem (by decide) rfl
  rw [h.toText, hcs]
  refine .of_piece (p := ⟨some (.version v), cs, 0⟩) hline rfl fun ctx hctx => ?_
  rw [piece_outside hctx, plainPiece_version ctx h hcs hrest]

/-! ### String literals -/

/-- The characters that stand for `c` in a literal are read as `c`. -/
theorem stringTail?_literalChar (c : Char) {cs value tail : List Char}
    (h : stringTail? '\'' cs = some (value, tail)) :
    stringTail? '\'' (Expr.literalChar c ++ cs) =
      some (c :: value, Expr.literalChar c ++ tail) := by
  unfold Expr.literalChar
  split_ifs with hbackslash hquote hnewline htab
  · simp [stringTail?, h, unescape, hbackslash]
  · simp [stringTail?, h, unescape, hquote]
  · simp [stringTail?, h, unescape, hnewline]
  · simp [stringTail?, h, unescape, htab]
  · rw [List.singleton_append, stringTail?, if_neg hquote, h]
    · rfl
    · rintro d ds rfl
      exact absurd rfl hbackslash

/-- What stands between the quotes of a printed text is read back as the text. -/
lemma stringTail?_literal (value rest : List Char) :
    stringTail? '\'' (value.flatMap Expr.literalChar ++ '\'' :: rest) =
      some (value, value.flatMap Expr.literalChar ++ ['\'']) := by
  induction value with
  | nil => rfl
  | cons c value ih =>
    rw [List.flatMap_cons, List.append_assoc, stringTail?_literalChar c ih, List.append_assoc]

/-- A printed text in quotes spells the text. -/
lemma spells_quoted (depth : Nat) (value : String) (rest : List Char) :
    Spells ⟨false, depth⟩ ⟨false, depth⟩ (Expr.literal value).toList rest [.quoted value] := by
  have hline : '\n' ∉ '\'' :: (value.toList.flatMap Expr.literalChar ++ ['\'']) := by
    simp only [List.mem_cons, List.mem_append, List.mem_flatMap, List.not_mem_nil, or_false,
      not_or, not_exists, not_and]
    refine ⟨by decide, fun c _ => ?_, by decide⟩
    unfold Expr.literalChar
    split_ifs with hbackslash hquote hnewline htab
    all_goals simp
    exact Ne.symm hnewline
  have htext : (Expr.literal value).toList =
      '\'' :: (value.toList.flatMap Expr.literalChar ++ ['\'']) := by
    simp [Expr.literal]
  rw [htext]
  refine .of_piece (p := ⟨some (.quoted value), value.toList.flatMap Expr.literalChar ++ ['\''], 0⟩)
    hline rfl fun ctx hctx => ?_
  have hread := stringTail?_literal value.toList rest
  rw [piece_outside hctx]
  unfold plainPiece
  rw [if_neg (by decide), if_neg (by decide), if_neg (by decide), if_pos (by decide),
    List.append_assoc, List.singleton_append, hread]
  simp

/-! ### Lists -/

/-- The first of joined texts comes first, the others behind separators. -/
lemma toList_intercalate_cons (separator first : String) (others : List String) :
    (separator.intercalate (first :: others)).toList =
      first.toList ++ others.flatMap fun s => separator.toList ++ s.toList := by
  induction others generalizing first with
  | nil => simp
  | cons second others ih =>
    rw [String.intercalate_cons_cons, String.toList_append, String.toList_append, ih]
    simp

/-- The members of a list, with a separator between any two, spell the words of the members with the
words of the separator between them. What may follow a member is what `Ends` says. -/
theorem spells_list {α : Type} {r : Region} (write : α → String) (words : α → List Lexeme)
    {separator : String} {between : List Lexeme} {Ends : List Char → Prop}
    (hseparator : ∀ rest, Spells r r separator.toList rest between)
    (hends : ∀ rest, Ends (separator.toList ++ rest)) (first : α) (others : List α)
    (hmembers : ∀ a ∈ first :: others, ∀ rest, Ends rest →
      Spells r r (write a).toList rest (words a))
    {rest : List Char} (hrest : Ends rest) :
    Spells r r (separator.intercalate ((first :: others).map write)).toList rest
      (words first ++ others.flatMap fun a => between ++ words a) := by
  rw [List.map_cons, toList_intercalate_cons]
  induction others generalizing first with
  | nil => simpa using hmembers first (by simp) rest hrest
  | cons second others ih =>
    have htail := ih second fun a ha => hmembers a (List.mem_cons_of_mem _ ha)
    have hfirst := hmembers first (by simp)
    simp only [List.map_cons, List.flatMap_cons, List.append_assoc] at htail ⊢
    exact (hfirst _ (by rw [List.append_assoc]; exact hends _)).append
      ((hseparator _).append htail)

/-! ### Feature lists and version sets -/

/-- Only right behind a name does `#` open a feature list. -/
theorem spells_openFeatures {s : String} (h : IsName s) (rest : List Char) :
    Spells .plain .features (s.toList ++ ['#', '(']) rest [.name s, .openFeatures] := by
  have hlexeme := wordLexeme_of_isName h
  obtain ⟨c, cs, hs, hstart, htail, -⟩ := h
  rw [hs]
  have hline : '\n' ∉ (c :: cs) ++ ['#', '('] := by
    rw [List.mem_append, not_or]
    exact ⟨not_mem_word hstart htail, by decide⟩
  refine .of_pieces (p := ⟨some (.name s), cs, 0⟩) (q := ⟨some .openFeatures, ['('], 0⟩) hline
    rfl rfl (fun ctx hctx => ?_) fun ctx hctx => ?_
  · have hends : EndsName ('#' :: (['('] ++ rest)) := by
      rintro d ⟨⟩
      decide
    rw [piece_outside hctx, plainPiece_word ctx hs hstart htail hends, hlexeme]
  · -- The region alone does not tell that a name ends here, so the context is computed in full.
    have hafter : ctx.after (some (.name s)) = ⟨false, 0, true⟩ := by
      obtain ⟨inSet, depth, afterName⟩ := ctx
      cases hctx
      rfl
    rw [hafter]
    rfl

/-- The features of a module are spelled inside of the parentheses of its feature list. -/
theorem spells_package {name : String} (hname : IsName name) {features : List String}
    (hfeatures : ∀ f ∈ features, IsName f) {rest : List Char} (hrest : EndsName rest) :
    Spells .plain .plain (Expr.packageText name features).toList rest
      (Expr.packageWords name features) := by
  cases features with
  | nil => exact spells_name 0 hname hrest
  | cons first others =>
    have hseparator (rest : List Char) :
        Spells .features .features " && ".toList rest [.logical .and] :=
      (spells_blank _ _).append ((spells_logical 1 .and _).append (spells_blank _ _))
    have hends (rest : List Char) : EndsName (" && ".toList ++ rest) := by
      rintro c ⟨⟩
      decide
    have hclosed : EndsName ([')'] ++ rest) := by
      rintro c ⟨⟩
      decide
    have hlist : Spells .features .features (" && ".intercalate (first :: others)).toList
        ([')'] ++ rest) (Grammar.featureWords first others) := by
      have hspells := spells_list id (fun f => [.name f]) hseparator hends first others
        (fun f hf rest hrest => spells_name 1 (hfeatures f hf) hrest) hclosed
      simpa [Grammar.featureWords] using hspells
    have hclose : Spells .features .plain [')'] rest [.mark .closeParen] :=
      spells_mark 1 (m := .closeParen) (by decide) rest
    have hall := (spells_openFeatures hname _).append (hlist.append hclose)
    simpa [Expr.packageText, Expr.packageWords] using hall

/-- The text does not continue a range. -/
def EndsRange (cs : List Char) : Prop :=
  ∀ c, cs.head? = some c → c = ' ' ∨ c = ']'

/-- A range spells what is read back from its text. -/
lemma spells_range {r : Version.Range} (h : r.IsLiteral) {rest : List Char}
    (hrest : EndsRange rest) :
    Spells .set .set r.toText.toList rest [.range r.toText r.respell] := by
  have hchars : ∀ c ∈ r.toText.toList, isBlank c = false ∧ c ≠ ',' ∧ c ≠ ']' ∧ c ≠ '\n' := by
    intro c hc
    rcases h.of_mem_toText hc with hc | rfl | rfl
    · simp only [Version.isLiteralChar, Bool.or_eq_true, beq_iff_eq] at hc
      rcases hc with hc | rfl
      · exact ⟨not_isBlank_of_isSuffixChar hc, ne_of_isSuffixChar hc rfl, ne_of_isSuffixChar hc rfl,
          ne_of_isSuffixChar hc rfl⟩
      · decide
    · decide
    · decide
  have hread := h.ofChars?_toText
  cases htext : r.toText.toList with
  | nil =>
    rw [htext] at hread
    cases hread
  | cons c cs =>
    rw [htext] at hchars hread
    have hline : '\n' ∉ c :: cs := fun hmem => (hchars _ hmem).2.2.2 rfl
    have htake : (cs ++ rest).takeWhile (fun d => !(isBlank d || d == ',' || d == ']')) = cs := by
      rw [takeWhile_append_of_head]
      · refine List.takeWhile_eq_self_iff.mpr fun d hd => ?_
        obtain ⟨hblank, hcomma, hclose, -⟩ := hchars d (List.mem_cons_of_mem _ hd)
        simp [hblank, hcomma, hclose]
      · intro d hd
        rcases hrest d hd with rfl | rfl <;> decide
    have hofList : String.ofList (c :: cs) = r.toText := by rw [← htext, String.ofList_toList]
    refine .of_piece (p := ⟨some (.range r.toText r.respell), cs, 0⟩) hline rfl fun ctx hctx => ?_
    have hset : ctx.inSet = true := congrArg Region.inSet hctx
    obtain ⟨hblank, hcomma, hclose, -⟩ := hchars c (by simp)
    unfold piece setPiece
    rw [if_pos hset, if_neg (by simp [hblank, hcomma]), if_neg hclose, htake]
    simp [hread, hofList]

/-- A version set spells its ranges, each as it is read back. -/
lemma spells_set {set : Version.RangeSet} (h : ∀ r ∈ set.ranges, r.IsLiteral)
    (rest : List Char) :
    Spells .plain .plain set.toText.toList rest (Expr.setWords set) := by
  have hopen (rest : List Char) (hmem : ']' ∈ rest) :
      Spells .plain .set ['['] rest [.openSet] := by
    refine .of_piece (p := ⟨some .openSet, [], 0⟩) (by decide) rfl fun ctx hctx => ?_
    rw [piece_outside hctx]
    unfold plainPiece
    rw [if_neg (by decide), if_neg (by decide), if_pos rfl, if_pos (by simpa using hmem)]
  have hclose : Spells .set .plain [']'] rest [.closeSet] := by
    refine .of_piece (p := ⟨some .closeSet, [], 0⟩) (by decide) rfl fun ctx hctx => ?_
    have hset : ctx.inSet = true := congrArg Region.inSet hctx
    unfold piece
    rw [if_pos hset]
    rfl
  have hranges : Spells .set .set (" ".intercalate (set.ranges.map Version.Range.toText)).toList
      ([']'] ++ rest) (Grammar.rangeWords (Expr.spelledRanges set)) := by
    obtain ⟨ranges⟩ := set
    cases ranges with
    | nil => exact .nil _ _
    | cons first others =>
      have hends (rest : List Char) : EndsRange (" ".toList ++ rest) := by
        rintro c ⟨⟩
        exact .inl rfl
      have hclosed : EndsRange ([']'] ++ rest) := by
        rintro c ⟨⟩
        exact .inr rfl
      have hspells := spells_list Version.Range.toText (fun r => [.range r.toText r.respell])
        (spells_blank .set) hends first others (fun r hr rest hrest => spells_range (h r hr) hrest)
        hclosed
      have hwords : Grammar.rangeWords (Expr.spelledRanges ⟨first :: others⟩) =
          [.range first.toText first.respell] ++
            others.flatMap fun r => [] ++ [.range r.toText r.respell] := by
        simp [Grammar.rangeWords, Expr.spelledRanges, List.map_eq_flatMap, List.flatMap_assoc]
      rw [hwords]
      exact hspells
  have hall := (hopen _ (by simp)).append (hranges.append hclose)
  simpa [Version.RangeSet.toText, Expr.setWords] using hall

end Lexer

end Requirements
