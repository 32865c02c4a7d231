import Mathlib.Tactic.Lemma
import Requirements.Proofs.Token.Spelling

/-!
# The forms of a piece

Whatever the lexer cuts off the front of a text has one of a few forms. Each form says in which
context it is cut, with which characters it is written, and how the text goes on. What holds of
every piece is shown by looking at the forms, and the branches of the lexer are looked at only here.
-/

namespace Requirements

namespace Lexer

open Text

/-- Whether a character stands between the ranges of a version set, or behind them. -/
def endsRange (c : Char) : Bool :=
  isBlank c || c == ',' || c == ']'

/-- The forms of a piece that starts with `c` in front of `cs`. -/
inductive Form (ctx : Context) : Char → List Char → Piece → Prop
  | blank {c : Char} {cs : List Char} : isBlank c = true → Form ctx c cs ⟨none, [], 0⟩
  | comma {cs : List Char} : ctx.inSet = true → Form ctx ',' cs ⟨none, [], 0⟩
  | comment {tail rest : List Char} : ctx.inSet = false → ctx.afterName = false → '\n' ∉ tail →
    (∀ d, rest.head? = some d → d = '\n') → ctx.depth = 0 →
    Form ctx '#' (tail ++ rest) ⟨none, tail, 0⟩
  | openFeatures {rest : List Char} : ctx.inSet = false → ctx.depth = 0 → ctx.afterName = true →
    Form ctx '#' ('(' :: rest) ⟨some .openFeatures, ['('], 0⟩
  | openSet {cs : List Char} : ctx.inSet = false → ']' ∈ cs → Form ctx '[' cs ⟨some .openSet, [], 0⟩
  | closeSet {cs : List Char} : ctx.inSet = true → Form ctx ']' cs ⟨some .closeSet, [], 0⟩
  | range {c : Char} {tail rest : List Char} {r : Version.Range} : ctx.inSet = true →
    (∀ d ∈ c :: tail, endsRange d = false) → (∀ d, rest.head? = some d → endsRange d = true) →
    Version.Range.ofChars? (c :: tail) = some r →
    Form ctx c (tail ++ rest) ⟨some (.range (String.ofList (c :: tail)) r), tail, 0⟩
  | quoted {quote : Char} {cs value tail : List Char} : ctx.inSet = false →
    (quote = '\'' ∨ quote = '"') → stringTail? quote cs = some (value, tail) →
    Form ctx quote cs ⟨some (.quoted (String.ofList value)), tail, 0⟩
  | pair {c d : Char} {rest : List Char} {l : Lexeme} : ctx.inSet = false →
    pairOperator? c d = some l → Form ctx c (d :: rest) ⟨some l, [d], 0⟩
  | single {c : Char} {cs : List Char} {l : Lexeme} : ctx.inSet = false →
    singleOperator? c = some l → cs.head?.bind (pairOperator? c) = none →
    Form ctx c cs ⟨some l, [], if cs.isEmpty then 1 else 0⟩
  | mark {m : Mark} {cs : List Char} : ctx.inSet = false → m ≠ .assign →
    Form ctx m.char cs ⟨some (.mark m), [], 0⟩
  | version {c : Char} {tail rest : List Char} {v : Version} : ctx.inSet = false → v.IsLiteral →
    v.text.toList = c :: tail → (∀ d, rest.head? = some d → isSuffixChar d = false) →
    Form ctx c (tail ++ rest) ⟨some (.version v), tail, 0⟩
  | word {c : Char} {cs : List Char} : ctx.inSet = false → isNameStart c = true →
    Form ctx c cs ⟨some (wordLexeme (String.ofList (c :: nameTail cs))), nameTail cs, 0⟩

variable {ctx : Context} {c : Char} {cs : List Char} {p : Piece}

/-- In a version set, a piece is a blank or a comma, the closing bracket or a range. -/
lemma form_of_setPiece (hset : ctx.inSet = true) (h : setPiece c cs = .ok p) :
    Form ctx c cs p := by
  unfold setPiece at h
  split at h
  · rename_i hsilent
    cases h
    rcases Bool.or_eq_true_iff.mp hsilent with hblank | hcomma
    · exact .blank hblank
    · obtain rfl := eq_of_beq hcomma
      exact .comma hset
  split at h
  · rename_i hclose
    cases h
    exact hclose ▸ .closeSet hset
  rename_i hsilent hclose
  simp only at h
  split at h
  · rename_i r hread
    cases h
    have hform : Form ctx c
        (cs.takeWhile (fun d => !endsRange d) ++ cs.dropWhile fun d => !endsRange d)
        ⟨some (.range (String.ofList (c :: cs.takeWhile fun d => !endsRange d)) r),
          cs.takeWhile fun d => !endsRange d, 0⟩ := by
      refine .range hset (fun d hd => ?_) (fun d hd => ?_) hread
      · rcases List.mem_cons.mp hd with rfl | hd
        · simpa [endsRange, hclose] using hsilent
        · simpa using List.mem_takeWhile_imp hd
      · have hne := List.head?_dropWhile_not (fun d => !endsRange d) cs
        rw [hd] at hne
        simpa using hne
    rwa [List.takeWhile_append_dropWhile] at hform
  · cases h

/-- The sign of comments starts a comment, or opens a feature list behind a name. -/
lemma form_of_hashPiece (hset : ctx.inSet = false) (h : hashPiece ctx cs = .ok p) :
    Form ctx '#' cs p := by
  unfold hashPiece at h
  split_ifs at h with hdepth hname
  · split at h
    · cases h
      exact .openFeatures hset hdepth hname
    · cases h
  · cases h
    have hform : Form ctx '#' (cs.takeWhile (· != '\n') ++ cs.dropWhile (· != '\n'))
        ⟨none, cs.takeWhile (· != '\n'), 0⟩ := by
      refine .comment hset (by simpa using hname) (fun hmem => ?_) (fun d hd => ?_) hdepth
      · simpa using List.mem_takeWhile_imp hmem
      · have hne := List.head?_dropWhile_not (· != '\n') cs
        rw [hd] at hne
        simpa using hne
    rwa [List.takeWhile_append_dropWhile] at hform

/-- An operator has one of the forms of operators. -/
lemma form_of_operator? (hset : ctx.inSet = false) (h : operator? c cs = some p) :
    Form ctx c cs p := by
  unfold operator? at h
  split at h
  · rename_i hpair
    cases h
    obtain ⟨d, hd, hpair⟩ := Option.bind_eq_some_iff.mp hpair
    obtain ⟨rest, rfl⟩ : ∃ rest, cs = d :: rest := by
      cases cs with
      | nil => cases hd
      | cons e rest =>
        obtain rfl : e = d := by simpa using hd
        exact ⟨rest, rfl⟩
    exact .pair hset hpair
  rename_i hpair
  split at h
  · rename_i hsingle
    cases h
    exact .single hset hsingle hpair
  · rename_i hsingle
    obtain ⟨m, hm, rfl⟩ := Option.map_eq_some_iff.mp h
    obtain rfl : m.char = c := by simpa using List.find?_some hm
    refine .mark hset ?_
    rintro rfl
    cases hsingle

/-- A version is a piece that starts with a digit. -/
lemma form_of_versionPiece (hset : ctx.inSet = false) (hdigit : isDigit c = true) :
    Form ctx c cs (versionPiece c cs) := by
  unfold versionPiece
  split
  · rename_i components rest hread
    obtain ⟨text, htext, hread', -⟩ := Version.exists_literalFrom? hread
    obtain ⟨d, tail, rfl, -⟩ := Version.exists_of_literalFrom? hread'
    obtain ⟨rfl, rfl⟩ : c = d ∧ cs = tail ++ rest := List.cons.inj htext
    have htail : (tail ++ rest).take ((tail ++ rest).length - rest.length) = tail := by simp
    simp only [htail]
    refine .version hset ?_ (String.toList_ofList ..) fun d hd => ?_
    · rwa [Version.IsLiteral, String.toList_ofList]
    · exact Version.not_isSuffixChar_of_literalFrom? hread hd
  · rename_i hread
    rw [Version.literalFrom?_cons cs hdigit] at hread
    cases hread

/-- Every piece has one of the forms. -/
lemma form_of_piece (h : piece ctx c cs = .ok p) : Form ctx c cs p := by
  unfold piece at h
  split at h
  · exact form_of_setPiece ‹_› h
  rename_i hset
  have hset : ctx.inSet = false := by simpa using hset
  unfold plainPiece at h
  split at h
  · cases h
    exact .blank ‹_›
  split at h
  · rename_i hhash
    subst hhash
    exact form_of_hashPiece hset h
  split at h
  · rename_i hbracket
    subst hbracket
    split at h
    · rename_i hclose
      cases h
      exact .openSet hset (by simpa using hclose)
    · cases h
  split at h
  · rename_i hquote
    split at h
    · rename_i hread
      cases h
      exact .quoted hset hquote hread
    · cases h
  split at h
  · rename_i hoperator
    cases h
    exact form_of_operator? hset hoperator
  split at h
  · cases h
    exact form_of_versionPiece hset ‹_›
  split at h
  · cases h
    exact .word hset ‹_›
  · cases h

/-! ### The characters of a piece -/

/-- A string literal ends with its quote, and nothing behind the quote belongs to it. -/
theorem exists_of_stringTail? {quote : Char} {cs value tail : List Char}
    (h : stringTail? quote cs = some (value, tail)) :
    (∃ body, tail = body ++ [quote]) ∧ ∃ rest, cs = tail ++ rest := by
  fun_induction stringTail? quote cs generalizing value tail with
  | case1 => cases h
  | case2 d cs ih =>
    obtain ⟨⟨value', tail'⟩, htail, heq⟩ := Option.map_eq_some_iff.mp h
    cases heq
    obtain ⟨⟨body, rfl⟩, rest, rfl⟩ := ih htail
    exact ⟨⟨'\\' :: d :: body, by simp⟩, rest, by simp⟩
  | case3 cs hescape =>
    cases h
    exact ⟨⟨[], rfl⟩, cs, rfl⟩
  | case4 d cs hescape hquote ih =>
    obtain ⟨⟨value', tail'⟩, htail, heq⟩ := Option.map_eq_some_iff.mp h
    cases heq
    obtain ⟨⟨body, rfl⟩, rest, rfl⟩ := ih htail
    exact ⟨⟨d :: body, by simp⟩, rest, by simp⟩

/-- A quoted text goes on unless the quote closes it, escapes apart. -/
lemma stringTail?_cons {quote c : Char} (hc : c ≠ '\\') (cs : List Char) :
    stringTail? quote (c :: cs) =
      if c = quote then some ([], [c])
      else (stringTail? quote cs).map fun (value, tail) => (c :: value, c :: tail) := by
  rw [stringTail?]
  rintro d ds rfl
  exact absurd rfl hc

/-- A string literal is read in the same way, whatever follows it. -/
theorem stringTail?_append {quote : Char} (hquote : quote ≠ '\\') {cs value tail : List Char}
    (h : stringTail? quote cs = some (value, tail)) (rest : List Char) :
    stringTail? quote (tail ++ rest) = some (value, tail) := by
  fun_induction stringTail? quote cs generalizing value tail with
  | case1 => cases h
  | case2 d cs ih =>
    obtain ⟨⟨value', tail'⟩, htail, heq⟩ := Option.map_eq_some_iff.mp h
    cases heq
    simp [stringTail?, ih htail]
  | case3 cs hescape =>
    cases h
    rw [List.singleton_append, stringTail?_cons hquote, if_pos rfl]
  | case4 d cs hescape hne ih =>
    obtain ⟨⟨value', tail'⟩, htail, heq⟩ := Option.map_eq_some_iff.mp h
    cases heq
    have hd : d ≠ '\\' := by
      rintro rfl
      cases cs with
      | nil => cases htail
      | cons e cs => exact hescape e cs rfl rfl
    rw [List.cons_append, stringTail?_cons hd, if_neg hne, ih htail]
    rfl

/-- A name takes a beginning of the text that follows. -/
lemma exists_nameTail_append (cs : List Char) : ∃ rest, cs = nameTail cs ++ rest := by
  fun_induction nameTail cs with
  | case1 c cs hword ih =>
    obtain ⟨rest, hrest⟩ := ih
    exact ⟨rest, by rw [List.cons_append, List.cons_append, List.cons_append, ← hrest]⟩
  | case3 c cs _ hword ih =>
    obtain ⟨rest, hrest⟩ := ih
    exact ⟨rest, by rw [List.cons_append, ← hrest]⟩
  | _ => exact ⟨_, rfl⟩

end Lexer

/-- The characters that a word is written with: its text, or a string literal between quotes. -/
def Lexeme.WrittenAs : Lexeme → List Char → Prop
  | .quoted _, cs => ∃ quote body, (quote = '\'' ∨ quote = '"') ∧ cs = quote :: (body ++ [quote])
  | l, cs => cs = l.text.toList

namespace Lexer

open Text

/-- An operator of two characters is written as these. -/
lemma writtenAs_of_pairOperator? {c d : Char} {l : Lexeme} (h : pairOperator? c d = some l) :
    l.WrittenAs [c, d] := by
  unfold pairOperator? at h
  split_ifs at h
  all_goals
    cases h
    simp_all
    rfl

/-- An operator of one character is written as this. -/
lemma writtenAs_of_singleOperator? {c : Char} {l : Lexeme} (h : singleOperator? c = some l) :
    l.WrittenAs [c] := by
  unfold singleOperator? at h
  split_ifs at h
  all_goals
    cases h
    simp_all
    rfl

/-- A word is written as its characters. -/
lemma writtenAs_wordLexeme (s : String) : (wordLexeme s).WrittenAs s.toList := by
  unfold wordLexeme
  split
  · rename_i k hword
    obtain rfl : k.text = s := by simpa using List.find?_some hword
    rfl
  · rfl

namespace Form

variable {ctx : Context} {c : Char} {cs : List Char} {p : Piece}

/-- The characters of a piece are the first of the text. -/
theorem exists_rest (h : Form ctx c cs p) : ∃ rest, cs = p.tail ++ rest := by
  cases h with
  | quoted _ _ hread => exact (exists_of_stringTail? hread).2
  | word => exact exists_nameTail_append cs
  | _ => exact ⟨_, rfl⟩

/-- A word is written with the characters of its piece. -/
theorem writtenAs (h : Form ctx c cs p) {l : Lexeme} (hl : p.lexeme = some l) :
    l.WrittenAs (c :: p.tail) := by
  cases h with
  | blank | comma | comment => cases hl
  | openFeatures | openSet | closeSet =>
    cases hl
    rfl
  | mark | range =>
    cases hl
    exact (String.toList_ofList ..).symm
  | quoted _ hquote hread =>
    cases hl
    obtain ⟨⟨body, rfl⟩, -⟩ := exists_of_stringTail? hread
    exact ⟨c, body, hquote, rfl⟩
  | pair _ hpair =>
    cases hl
    exact writtenAs_of_pairOperator? hpair
  | single _ hsingle =>
    cases hl
    exact writtenAs_of_singleOperator? hsingle
  | version _ _ htext =>
    cases hl
    exact htext.symm
  | word =>
    cases hl
    have hwritten := writtenAs_wordLexeme (String.ofList (c :: nameTail cs))
    rwa [String.toList_ofList] at hwritten

end Form

/-! ### Cutting a piece off another text -/

/-- Two characters that are an operator together are one piece. -/
lemma plainPiece_pair (ctx : Context) {c d : Char} {l : Lexeme} (h : pairOperator? c d = some l)
    (rest : List Char) : plainPiece ctx c (d :: rest) = .ok ⟨some l, [d], 0⟩ := by
  unfold pairOperator? at h
  split_ifs at h with h1 h2 h3 h4 h5 h6 h7
  all_goals
    cases h
    simp_all
    rfl

/-- An operator of one character is a piece, if it is no operator with the next one. -/
lemma plainPiece_single (ctx : Context) {c : Char} {l : Lexeme} (h : singleOperator? c = some l)
    {rest : List Char} (hrest : rest.head?.bind (pairOperator? c) = none) :
    plainPiece ctx c rest = .ok ⟨some l, [], if rest.isEmpty then 1 else 0⟩ := by
  have hoperator : operator? c rest = some ⟨some l, [], if rest.isEmpty then 1 else 0⟩ := by
    rw [operator?, hrest, h]
  have hc : c = '<' ∨ c = '>' ∨ c = '=' := by
    unfold singleOperator? at h
    split_ifs at h <;> simp_all
  unfold plainPiece
  rw [if_neg (by rcases hc with rfl | rfl | rfl <;> decide),
    if_neg (by rcases hc with rfl | rfl | rfl <;> decide),
    if_neg (by rcases hc with rfl | rfl | rfl <;> decide),
    if_neg (by rcases hc with rfl | rfl | rfl <;> decide), hoperator]

/-- A quoted text is a piece up to the quote that closes it. -/
lemma plainPiece_quoted (ctx : Context) {quote : Char} (hquote : quote = '\'' ∨ quote = '"')
    {cs value tail : List Char} (h : stringTail? quote cs = some (value, tail)) (rest : List Char) :
    plainPiece ctx quote (tail ++ rest) = .ok ⟨some (.quoted (String.ofList value)), tail, 0⟩ := by
  have hne : quote ≠ '\\' := by rcases hquote with rfl | rfl <;> decide
  have hread := stringTail?_append hne h rest
  unfold plainPiece
  rw [if_neg (by rcases hquote with rfl | rfl <;> decide),
    if_neg (by rcases hquote with rfl | rfl <;> decide),
    if_neg (by rcases hquote with rfl | rfl <;> decide), if_pos hquote, hread]

/-- In a version set, a range is a piece up to the character that ends it. -/
lemma setPiece_range {c : Char} {tail : List Char} (hchars : ∀ d ∈ c :: tail, endsRange d = false)
    {r : Version.Range} (hread : Version.Range.ofChars? (c :: tail) = some r) {rest : List Char}
    (hrest : ∀ d, rest.head? = some d → endsRange d = true) :
    setPiece c (tail ++ rest) = .ok ⟨some (.range (String.ofList (c :: tail)) r), tail, 0⟩ := by
  have htake : (tail ++ rest).takeWhile (fun d => !endsRange d) = tail := by
    rw [takeWhile_append_of_head]
    · refine List.takeWhile_eq_self_iff.mpr fun d hd => ?_
      simp [hchars d (List.mem_cons_of_mem c hd)]
    · intro d hd
      simp [hrest d hd]
  have hc : isBlank c = false ∧ c ≠ ',' ∧ c ≠ ']' := by
    simpa [endsRange, and_assoc] using hchars c List.mem_cons_self
  unfold setPiece
  rw [if_neg (by simp [hc.1, hc.2.1]), if_neg hc.2.2]
  unfold endsRange at htake
  simp only [htake, hread]

/-- Only where a name ends is a feature list opened. -/
theorem Form.afterName_of_openFeatures {ctx : Context} {c : Char} {cs : List Char} {p : Piece}
    (h : Form ctx c cs p) (hl : p.lexeme = some .openFeatures) : ctx.afterName = true := by
  cases h with
  | openFeatures _ _ hname => exact hname
  | pair _ hpair => rcases pairOperator?_cases hpair with ⟨op, rfl, -⟩ | ⟨op, rfl⟩ <;> cases hl
  | single _ hsingle => rcases singleOperator?_cases hsingle with rfl | rfl | rfl <;> cases hl
  | word =>
    unfold wordLexeme at hl
    split at hl <;> cases hl
  | _ => cases hl

/-- What the text behind a piece that starts with `c` must be like for the piece to end there. -/
structure Stops (c : Char) (p : Piece) (rest : List Char) : Prop where
  comment : p.lexeme = none → c = '#' → ∀ d, rest.head? = some d → d = '\n'
  set : p.lexeme = some .openSet → ']' ∈ rest
  range : ∀ text r, p.lexeme = some (.range text r) → ∀ d, rest.head? = some d → endsRange d = true
  operator : ∀ l, singleOperator? c = some l → p.lexeme = some l →
    rest.head?.bind (pairOperator? c) = none
  version : ∀ v, p.lexeme = some (.version v) → Version.EndsLiteral rest
  word : ∀ s, p.lexeme = some (wordLexeme s) → nameTail (p.tail ++ rest) = p.tail

/-- A word that is no operator, mark or literal ends where a name would end. -/
theorem Form.tail_eq_nameTail {ctx : Context} {c : Char} {cs : List Char} {p : Piece}
    (h : Form ctx c cs p) {s : String} (hword : p.lexeme = some (wordLexeme s)) :
    p.tail = nameTail cs := by
  have hcases : (∃ k, p.lexeme = some (.keyword k)) ∨ p.lexeme = some (.name s) := by
    rw [hword]
    unfold wordLexeme
    split
    · exact .inl ⟨_, rfl⟩
    · exact .inr rfl
  cases h with
  | word => rfl
  | pair _ hpair =>
    rcases pairOperator?_cases hpair with ⟨op, rfl, -⟩ | ⟨op, rfl⟩ <;> simp at hcases
  | single _ hsingle =>
    rcases singleOperator?_cases hsingle with rfl | rfl | rfl <;> simp at hcases
  | _ => simp at hcases

/-- A piece is cut off again in front of any text in which it stops, in any context of the same
region. -/
theorem Form.recut {ctx : Context} {c : Char} {cs : List Char} {p : Piece} (h : Form ctx c cs p)
    {rest : List Char} (hstops : Stops c p rest) {ctx' : Context}
    (hregion : ctx'.region = ctx.region)
    (hname : p.lexeme = some .openFeatures → ctx'.afterName = true)
    (hsilent : p.lexeme = none → ctx'.afterName = true → ctx.afterName = true) :
    ∃ overhang, piece ctx' c (p.tail ++ rest) = .ok ⟨p.lexeme, p.tail, overhang⟩ := by
  have hset : ctx'.inSet = ctx.inSet := congrArg Region.inSet hregion
  have hdepth : ctx'.depth = ctx.depth := congrArg Region.depth hregion
  have houtside (hin : ctx.inSet = false) (cs : List Char) :
      piece ctx' c cs = plainPiece ctx' c cs := by
    rw [piece, hset, hin]
    rfl
  cases h with
  | blank hblank =>
    refine ⟨0, ?_⟩
    unfold piece
    split
    · unfold setPiece
      rw [if_pos (by simp [hblank])]
    · unfold plainPiece
      rw [if_pos hblank]
  | comma hin =>
    refine ⟨0, ?_⟩
    rw [piece, hset, hin, if_pos rfl]
    rfl
  | @comment tail _ hin hnot hline _ hzero =>
    have hnot' : ctx'.afterName = false := by
      by_contra hne
      simp [hsilent rfl (by simpa using hne)] at hnot
    have htake : (tail ++ rest).takeWhile (· != '\n') = tail := by
      rw [takeWhile_append_of_head]
      · refine List.takeWhile_eq_self_iff.mpr fun d hd => ?_
        have hne : d ≠ '\n' := fun heq => hline (heq ▸ hd)
        simpa using hne
      · intro d hd
        simp [hstops.comment rfl rfl d hd]
    refine ⟨0, ?_⟩
    rw [houtside hin]
    unfold plainPiece hashPiece
    rw [if_neg (by decide), if_pos rfl, if_pos (hdepth.trans hzero), if_neg (by simp [hnot']),
      htake]
  | openFeatures hin hzero _ =>
    refine ⟨0, ?_⟩
    rw [houtside hin]
    unfold plainPiece hashPiece
    rw [if_neg (by decide), if_pos rfl, if_pos (hdepth.trans hzero), if_pos (hname rfl)]
    rfl
  | openSet hin =>
    refine ⟨0, ?_⟩
    rw [houtside hin]
    unfold plainPiece
    rw [if_neg (by decide), if_neg (by decide), if_pos rfl, if_pos (by simpa using hstops.set rfl)]
  | closeSet hin =>
    refine ⟨0, ?_⟩
    rw [piece, hset, hin, if_pos rfl]
    rfl
  | range hin hchars _ hread =>
    refine ⟨0, ?_⟩
    rw [piece, hset, hin, if_pos rfl]
    exact setPiece_range hchars hread (hstops.range _ _ rfl)
  | quoted hin hquote hread =>
    exact ⟨0, (houtside hin _).trans (plainPiece_quoted ctx' hquote hread rest)⟩
  | pair hin hpair => exact ⟨0, (houtside hin _).trans (plainPiece_pair ctx' hpair rest)⟩
  | single hin hsingle _ =>
    exact ⟨_, (houtside hin _).trans
      (plainPiece_single ctx' hsingle (hstops.operator _ hsingle rfl))⟩
  | mark hin hm => exact ⟨0, (houtside hin _).trans (plainPiece_mark ctx' hm rest)⟩
  | version hin hliteral htext _ =>
    exact ⟨0, (houtside hin _).trans
      (plainPiece_version ctx' hliteral htext (hstops.version _ rfl))⟩
  | word hin hstart =>
    refine ⟨0, (houtside hin _).trans ?_⟩
    have hsuffix : isSuffixChar c = true := by simp [isSuffixChar, hstart]
    rw [plainPiece_of_isSuffixChar ctx' hsuffix,
      if_neg (by simp [Version.not_isDigit_of_isNameStart hstart]), hstops.word _ rfl]

end Lexer

end Requirements
