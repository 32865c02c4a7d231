import Mathlib.Data.List.DropRight
import Mathlib.Tactic.Lemma
import Requirements.Proofs.Token.Pieces

/-!
# Where the words of a text stand

A token tells which part of the text it was found in. The parts that belong to the tokens of a text
come one after another and do not overlap. Each of them is what the word is written with, and what
is left between them is blank, belongs to a comment, or is a comma between the ranges of a version
set. Only an operator of one character at the very end of the text tells of more than there is.
-/

namespace Requirements

namespace Position

/-- The place is one of the text: its line is counted by the newlines before it, and its column by
the characters behind the last of them. -/
structure IsPlaceIn (cs : List Char) (p : Position) : Prop where
  offset_le : p.offset ≤ cs.length
  line : p.line = (cs.take p.offset).count '\n' + 1
  column : p.column = ((cs.take p.offset).rtakeWhile (· != '\n')).length + 1

/-- The offset behind a text is its length. -/
lemma offset_start_advanceOver (cs : List Char) :
    (start.advanceOver cs).offset = cs.length := by
  rw [offset_advanceOver]
  exact Nat.zero_add _

/-- The line behind a text counts its line breaks, from one. -/
lemma line_start_advanceOver (cs : List Char) :
    (start.advanceOver cs).line = cs.count '\n' + 1 := by
  induction cs using List.reverseRecOn with
  | nil => rfl
  | append_singleton cs c ih =>
    rw [advanceOver_append, advanceOver_cons, advanceOver_nil, advance]
    by_cases hc : c = '\n' <;> simp [hc, ih]

/-- The column behind a text counts the characters of its last line, from one. -/
lemma column_start_advanceOver (cs : List Char) :
    (start.advanceOver cs).column = (cs.rtakeWhile (· != '\n')).length + 1 := by
  induction cs using List.reverseRecOn with
  | nil => rfl
  | append_singleton cs c ih =>
    rw [advanceOver_append, advanceOver_cons, advanceOver_nil, advance]
    by_cases hc : c = '\n'
    · rw [if_pos hc, List.rtakeWhile_concat_neg _ _ _ (by simp [hc])]
      rfl
    · rw [if_neg hc, List.rtakeWhile_concat_pos _ _ _ (by simp [hc])]
      simp [ih]

/-- The place behind the first characters of a text is a place of the text. -/
theorem isPlaceIn_advanceOver (before rest : List Char) :
    (start.advanceOver before).IsPlaceIn (before ++ rest) := by
  have htake : (before ++ rest).take (start.advanceOver before).offset = before := by
    rw [offset_start_advanceOver, List.take_left]
  refine ⟨?_, ?_, ?_⟩
  · rw [offset_start_advanceOver, List.length_append]
    omega
  · rw [htake, line_start_advanceOver]
  · rw [htake, column_start_advanceOver]

end Position

/-- Whether the word is an operator of one character. -/
def Lexeme.isSingleOperator : Lexeme → Bool
  | .compare .lt | .compare .gt | .mark .assign => true
  | _ => false

namespace Token

/-- The part of the text that a token tells of. -/
def slice (cs : List Char) (t : Token) : List Char :=
  (cs.drop t.start.offset).take (t.stop - t.start.offset)

/-- The character at an offset belongs to the token. -/
def Covers (t : Token) (i : Nat) : Prop :=
  t.start.offset ≤ i ∧ i < t.stop

/-- The token is an operator of one character, and the last character of the text. -/
def EndsText (cs : List Char) (t : Token) : Prop :=
  t.start.offset + 1 = cs.length ∧ t.lexeme.isSingleOperator = true

instance (t : Token) (i : Nat) : Decidable (t.Covers i) :=
  inferInstanceAs (Decidable (_ ∧ _))

instance (cs : List Char) (t : Token) : Decidable (t.EndsText cs) :=
  inferInstanceAs (Decidable (_ ∧ _))

/-- The token stands in the text where it says. -/
structure StandsIn (cs : List Char) (t : Token) : Prop where
  place : t.start.IsPlaceIn cs
  start_lt_stop : t.start.offset < t.stop
  stop_le : ¬t.EndsText cs → t.stop ≤ cs.length
  stop_eq : t.EndsText cs → t.stop = cs.length + 1
  writtenAs : t.lexeme.WrittenAs (t.slice cs)

end Token

namespace Lexer

open Text

namespace Piece

/-- A piece gives a token if it has a lexeme, and the token ends as far behind as the piece says. -/
lemma mem_tokens_iff {p : Piece} {c : Char} {position : Position} {t : Token} :
    t ∈ p.tokens c position ↔
      ∃ l, p.lexeme = some l ∧ t = ⟨l, position, (p.stop c position).offset + p.overhang⟩ := by
  cases hp : p.lexeme with
  | none => simp [tokens, hp]
  | some l => simp [tokens, hp]

/-- A piece stops behind its characters. -/
lemma stop_eq (p : Piece) (c : Char) (before : List Char) :
    p.stop c (Position.start.advanceOver before) =
      Position.start.advanceOver (before ++ c :: p.tail) := by
  rw [Position.advanceOver_append]
  rfl

/-- The offset where a piece stops counts its characters. -/
lemma offset_stop (p : Piece) (c : Char) (before : List Char) :
    (p.stop c (Position.start.advanceOver before)).offset =
      before.length + (p.tail.length + 1) := by
  rw [stop_eq, Position.offset_start_advanceOver, List.length_append, List.length_cons]

end Piece

namespace Cuts

/-- From the end of the text no token is cut. -/
lemma eq_nil_of_rest {s s' : Spot} {tokens : List Token} (h : Cuts s tokens s')
    (hrest : s.rest = []) : tokens = [] := by
  cases h with
  | none => rfl
  | piece => cases hrest

end Cuts

/-- What is cut as an operator of one character is one of these operators. -/
lemma isSingleOperator_of_singleOperator? {c : Char} {l : Lexeme}
    (h : singleOperator? c = some l) : l.isSingleOperator = true := by
  rcases singleOperator?_cases h with rfl | rfl | rfl <;> rfl

/-- Only an operator of one character stops behind its last character, and only at the end of the
text. -/
theorem Form.overhang_eq {ctx : Context} {c : Char} {cs : List Char} {p : Piece}
    (h : Form ctx c cs p) {l : Lexeme} (hl : p.lexeme = some l) :
    p.overhang = if cs = [] ∧ l.isSingleOperator = true then 1 else 0 := by
  cases h with
  | blank | comma | comment => cases hl
  | openFeatures | openSet | closeSet | range | quoted | version =>
    cases hl
    simp [Lexeme.isSingleOperator]
  | pair => simp
  | single _ hsingle =>
    cases hl
    simp [isSingleOperator_of_singleOperator? hsingle, List.isEmpty_iff]
  | @mark m cs _ hm =>
    cases hl
    cases m with
    | assign => exact absurd rfl hm
    | _ => simp [Lexeme.isSingleOperator]
  | word =>
    cases hl
    unfold wordLexeme
    split <;> simp [Lexeme.isSingleOperator]

/-- The token of a piece tells of the characters of the piece. -/
theorem Form.slice_of_mem_tokens {ctx : Context} {c : Char} {cs before : List Char} {p : Piece}
    (h : Form ctx c cs p) {t : Token}
    (ht : t ∈ p.tokens c (Position.start.advanceOver before)) :
    t.slice (before ++ c :: cs) = c :: p.tail := by
  obtain ⟨l, hl, rfl⟩ := Piece.mem_tokens_iff.mp ht
  obtain ⟨rest, hrest⟩ := h.exists_rest
  have hoverhang := h.overhang_eq hl
  simp only [Token.slice, Piece.offset_stop, Position.offset_start_advanceOver, List.drop_left]
  have hlength : before.length + (p.tail.length + 1) + p.overhang - before.length =
      (c :: p.tail).length + p.overhang := by
    rw [List.length_cons]
    omega
  rw [hlength, hrest, ← List.cons_append, List.take_length_add_append]
  split at hoverhang
  · rename_i hend
    obtain ⟨htail, rfl⟩ := List.append_eq_nil_iff.mp (hrest.symm.trans hend.1)
    simp
  · simp [hoverhang]

/-- The token of a piece stands where the piece was cut off. -/
theorem Form.standsIn {ctx : Context} {c : Char} {cs before : List Char} {p : Piece}
    (h : Form ctx c cs p) {t : Token}
    (ht : t ∈ p.tokens c (Position.start.advanceOver before)) :
    t.StandsIn (before ++ c :: cs) := by
  have hslice := h.slice_of_mem_tokens ht
  obtain ⟨l, hl, rfl⟩ := Piece.mem_tokens_iff.mp ht
  obtain ⟨rest, hrest⟩ := h.exists_rest
  have hoverhang := h.overhang_eq hl
  have hlength : (before ++ c :: cs).length = before.length + (cs.length + 1) := by simp
  have htail : cs.length = p.tail.length + rest.length := by rw [hrest, List.length_append]
  refine ⟨Position.isPlaceIn_advanceOver .., ?_, ?_, ?_, ?_⟩
  · simp only [Position.offset_start_advanceOver, Piece.offset_stop]
    omega
  · intro hends
    simp only [Token.EndsText, Position.offset_start_advanceOver, hlength] at hends
    have hnone : ¬(cs = [] ∧ l.isSingleOperator = true) := by
      rintro ⟨rfl, hsingle⟩
      exact hends ⟨by simp, hsingle⟩
    rw [if_neg hnone] at hoverhang
    simp only [Piece.offset_stop, hlength]
    omega
  · intro hends
    simp only [Token.EndsText, Position.offset_start_advanceOver, hlength] at hends
    have hnil : cs = [] := List.eq_nil_of_length_eq_zero (by omega)
    rw [if_pos ⟨hnil, hends.2⟩] at hoverhang
    rw [hnil, List.length_nil] at htail hlength
    simp only [Piece.offset_stop]
    rw [hnil]
    simp
    omega
  · rw [hslice]
    exact h.writtenAs hl

/-- Cutting goes on behind what was cut off. -/
theorem Cuts.exists_append {s s' : Spot} {tokens : List Token} (h : Cuts s tokens s') :
    ∃ cut, s.rest = cut ++ s'.rest ∧ s'.position = s.position.advanceOver cut := by
  induction h with
  | none s => exact ⟨[], rfl, rfl⟩
  | @piece ctx position c cs p tokens s hpiece _ ih =>
    obtain ⟨rest, rfl⟩ := (form_of_piece hpiece).exists_rest
    obtain ⟨cut, hrest, hposition⟩ := ih
    refine ⟨c :: (p.tail ++ cut), ?_, ?_⟩
    · simp only [List.drop_left] at hrest
      simp [hrest]
    · simp only [Piece.stop] at hposition
      rw [hposition, ← Position.advanceOver_append, List.cons_append]

/-- Every token stands in the text, and behind what was cut off before it. -/
theorem Cuts.standsIn {s s' : Spot} {tokens : List Token} (h : Cuts s tokens s')
    {before : List Char} (hposition : s.position = Position.start.advanceOver before) :
    ∀ t ∈ tokens, t.StandsIn (before ++ s.rest) ∧ before.length ≤ t.start.offset := by
  induction h generalizing before with
  | none s => simp
  | @piece ctx position c cs p tokens s hpiece _ ih =>
    have hform := form_of_piece hpiece
    obtain ⟨rest, rfl⟩ := hform.exists_rest
    obtain rfl : position = Position.start.advanceOver before := hposition
    intro t ht
    rcases List.mem_append.mp ht with ht | ht
    · refine ⟨hform.standsIn ht, ?_⟩
      rw [Piece.start_of_mem_tokens ht, Position.offset_start_advanceOver]
    · obtain ⟨hstands, hle⟩ := ih (p.stop_eq c before) t ht
      simp only [List.drop_left, List.append_assoc, List.cons_append] at hstands
      rw [List.length_append] at hle
      exact ⟨hstands, by omega⟩

/-- In front of more text, the token of a piece stops with the piece. -/
theorem Form.stop_of_mem_tokens {ctx : Context} {c : Char} {cs before : List Char} {p : Piece}
    (h : Form ctx c cs p) {t : Token} (ht : t ∈ p.tokens c (Position.start.advanceOver before))
    (hrest : cs.drop p.tail.length ≠ []) : t.stop = (before ++ c :: p.tail).length := by
  obtain ⟨l, hl, rfl⟩ := Piece.mem_tokens_iff.mp ht
  have hoverhang := h.overhang_eq hl
  have hcs : cs ≠ [] := by
    rintro rfl
    simp at hrest
  rw [if_neg fun hend => hcs hend.1] at hoverhang
  simp [Piece.offset_stop, hoverhang]

/-- Every token stops before the next one starts. -/
theorem Cuts.pairwise {s s' : Spot} {tokens : List Token} (h : Cuts s tokens s')
    {before : List Char} (hposition : s.position = Position.start.advanceOver before) :
    tokens.Pairwise fun t u => t.stop ≤ u.start.offset := by
  induction h generalizing before with
  | none s => exact .nil
  | @piece ctx position c cs p tokens s hpiece htail ih =>
    obtain rfl : position = Position.start.advanceOver before := hposition
    have hnext := p.stop_eq c before
    refine List.pairwise_append.mpr ⟨?_, ih hnext, fun t ht u hu => ?_⟩
    · cases hl : p.lexeme <;> simp [Piece.tokens, hl]
    · have hrest : cs.drop p.tail.length ≠ [] := by
        intro hrest
        rw [htail.eq_nil_of_rest hrest] at hu
        cases hu
      rw [(form_of_piece hpiece).stop_of_mem_tokens ht hrest]
      exact (htail.standsIn hnext u hu).2

end Lexer

/-! ### Between the tokens -/

/-- The character at the offset `i` belongs to a comment: no newline and no token stands between it
and a `#` before it, or in its place, which does not touch a name. -/
def InComment (cs : List Char) (tokens : List Token) (i : Nat) : Prop :=
  ∃ j ≤ i, cs[j]? = some '#' ∧ (∀ t ∈ tokens, ∀ s, t.lexeme = .name s → t.stop ≠ j) ∧
    ∀ k, j ≤ k → k ≤ i → cs[k]? ≠ some '\n' ∧ ∀ t ∈ tokens, ¬t.Covers k

/-- The word is a range of a version set. -/
def Lexeme.IsRange (l : Lexeme) : Prop :=
  ∃ text r, l = .range text r

/-- The offset `i` lies between the brackets of a version set. -/
def InSet (tokens : List Token) (i : Nat) : Prop :=
  ∃ before opening ranges closing behind,
    tokens = before ++ opening :: (ranges ++ closing :: behind) ∧ opening.lexeme = .openSet ∧
      closing.lexeme = .closeSet ∧ (∀ t ∈ ranges, t.lexeme.IsRange) ∧ opening.stop ≤ i ∧
      i < closing.start.offset

/-- What may stand where no token does. -/
def Gap (cs : List Char) (tokens : List Token) (i : Nat) : Prop :=
  (∃ c, cs[i]? = some c ∧ Text.isBlank c = true) ∨ InComment cs tokens i ∨
    cs[i]? = some ',' ∧ InSet tokens i

namespace Lexer

open Text

/-- Inside a version set, a piece closes it, or is a range, or is no word. -/
theorem Form.inside {ctx : Context} {c : Char} {cs : List Char} {p : Piece} (h : Form ctx c cs p)
    (hset : ctx.inSet = true) :
    p = ⟨some .closeSet, [], 0⟩ ∨ (ctx.after p.lexeme).inSet = true ∧ ']' ∉ c :: p.tail ∧
      ∀ l, p.lexeme = some l → l.IsRange := by
  cases h with
  | closeSet => exact .inl rfl
  | blank hblank =>
    refine .inr ⟨hset, ?_, nofun⟩
    rintro (_ | ⟨_, ⟨⟩⟩)
    exact absurd hblank (by decide)
  | comma => exact .inr ⟨hset, by decide, nofun⟩
  | range _ hchars _ _ =>
    refine .inr ⟨hset, fun hmem => absurd (hchars _ hmem) (by decide), ?_⟩
    rintro l ⟨⟩
    exact ⟨_, _, rfl⟩
  | comment hout | openFeatures hout | openSet hout | quoted hout | pair hout | single hout
  | mark hout | version hout | word hout =>
    rw [hset] at hout
    cases hout

/-- Outside of version sets, only an opening bracket leads inside, and the set is closed again. -/
theorem Form.outside {ctx : Context} {c : Char} {cs : List Char} {p : Piece} (h : Form ctx c cs p)
    (hset : ctx.inSet = false) (hafter : (ctx.after p.lexeme).inSet = true) :
    p = ⟨some .openSet, [], 0⟩ ∧ ']' ∈ cs := by
  cases h with
  | openSet _ hclose => exact ⟨rfl, hclose⟩
  | comma hin | closeSet hin | range hin =>
    rw [hset] at hin
    cases hin
  | pair _ hpair =>
    rcases pairOperator?_cases hpair with ⟨op, rfl, -⟩ | ⟨op, rfl⟩ <;>
      simp [Context.after, hset] at hafter
  | single _ hsingle =>
    rcases singleOperator?_cases hsingle with rfl | rfl | rfl <;>
      simp [Context.after, hset] at hafter
  | @mark m => cases m <;> simp [Context.after, hset] at hafter
  | word =>
    unfold wordLexeme at hafter
    split at hafter <;> simp [Context.after, hset] at hafter
  | _ => simp [Context.after, hset] at hafter

/-- A version set that has been opened is closed behind the piece, unless it is closed there. -/
theorem Form.closes {ctx : Context} {c : Char} {p : Piece} {rest : List Char}
    (h : Form ctx c (p.tail ++ rest) p)
    (hclose : ctx.inSet = true → ']' ∈ c :: (p.tail ++ rest))
    (hafter : (ctx.after p.lexeme).inSet = true) : ']' ∈ rest := by
  cases hin : ctx.inSet with
  | false =>
    obtain ⟨rfl, hmem⟩ := h.outside hin hafter
    exact hmem
  | true =>
    rcases h.inside hin with rfl | ⟨-, hnot, -⟩
    · cases hafter
    · exact (List.mem_append.mp (hclose hin : ']' ∈ (c :: p.tail) ++ rest)).resolve_left hnot

/-- A version set that has been opened is closed behind ranges. -/
theorem Cuts.exists_closeSet {s s' : Spot} {tokens : List Token} (h : Cuts s tokens s')
    (hfinish : s'.rest = []) (hset : s.context.inSet = true) (hclose : ']' ∈ s.rest)
    {before : List Char} (hposition : s.position = Position.start.advanceOver before) :
    ∃ ranges closing behind, tokens = ranges ++ closing :: behind ∧
      (∀ t ∈ ranges, t.lexeme.IsRange) ∧ closing.lexeme = .closeSet ∧
      before.length ≤ closing.start.offset := by
  induction h generalizing before with
  | none s =>
    rw [hfinish] at hclose
    cases hclose
  | @piece ctx position c cs p tokens s hpiece _ ih =>
    obtain rfl : position = Position.start.advanceOver before := hposition
    have hform := form_of_piece hpiece
    obtain ⟨rest, rfl⟩ := hform.exists_rest
    rcases hform.inside hset with rfl | ⟨hset', hnot, hrange⟩
    · exact ⟨[], _, tokens, rfl, by simp, rfl, (Position.offset_start_advanceOver before).ge⟩
    · rw [List.drop_left] at ih
      obtain ⟨ranges, closing, behind, rfl, hranges, hclosing, hle⟩ :=
        ih hfinish hset' (hform.closes (fun _ => hclose) hset') (p.stop_eq c before)
      refine ⟨p.tokens c (Position.start.advanceOver before) ++ ranges, closing, behind, by simp,
        ?_, hclosing, by rw [List.length_append] at hle; omega⟩
      intro t ht
      rcases List.mem_append.mp ht with ht | ht
      · obtain ⟨l, hl, rfl⟩ := Piece.mem_tokens_iff.mp ht
        exact hrange l hl
      · exact hranges t ht

/-- What is known at a place of a text of which the characters `before` have been cut into the
tokens `earlier`. -/
structure Behind (before : List Char) (earlier : List Token) (s : Spot) : Prop where
  position : s.position = Position.start.advanceOver before
  stops : s.rest ≠ [] → ∀ t ∈ earlier, t.stop ≤ before.length
  name : s.context.afterName = false → s.rest ≠ [] →
    ∀ t ∈ earlier, ∀ n, t.lexeme = .name n → t.stop ≠ before.length
  set : s.context.inSet = true → ']' ∈ s.rest ∧ ∃ first opening ranges,
    earlier = first ++ opening :: ranges ∧ opening.lexeme = .openSet ∧
      ∀ t ∈ ranges, t.lexeme.IsRange

/-- A piece that is cut off keeps what is known. -/
theorem Behind.piece {before : List Char} {earlier : List Token} {ctx : Context}
    {position : Position} {c : Char} {cs : List Char} {p : Piece}
    (h : Behind before earlier ⟨ctx, position, c :: cs⟩) (hform : Form ctx c cs p) :
    Behind (before ++ c :: p.tail) (earlier ++ p.tokens c position)
      ⟨ctx.after p.lexeme, p.stop c position, cs.drop p.tail.length⟩ := by
  obtain rfl : position = Position.start.advanceOver before := h.position
  have hearlier : ∀ t ∈ earlier, t.stop < (before ++ c :: p.tail).length := by
    intro t ht
    have hle := h.stops (List.cons_ne_nil c cs) t ht
    rw [List.length_append, List.length_cons]
    omega
  refine ⟨p.stop_eq c before, fun hrest t ht => ?_, fun hname hrest t ht n hn => ?_, fun hset => ?_⟩
  · rcases List.mem_append.mp ht with ht | ht
    · exact (hearlier t ht).le
    · exact (hform.stop_of_mem_tokens ht hrest).le
  · rcases List.mem_append.mp ht with ht | ht
    · exact (hearlier t ht).ne
    · obtain ⟨l, hl, rfl⟩ := Piece.mem_tokens_iff.mp ht
      obtain rfl : l = .name n := hn
      rw [hl] at hname
      cases hname
  · have hclose : ']' ∈ cs.drop p.tail.length := by
      obtain ⟨rest, rfl⟩ := hform.exists_rest
      rw [List.drop_left]
      exact hform.closes (fun hin => (h.set hin).1) hset
    cases hin : ctx.inSet with
    | false =>
      obtain ⟨rfl, -⟩ := hform.outside hin hset
      exact ⟨hclose, earlier, _, [], rfl, rfl, by simp⟩
    | true =>
      obtain ⟨-, first, opening, ranges, rfl, hopening, hranges⟩ := h.set hin
      rcases hform.inside hin with rfl | ⟨-, -, hrange⟩
      · cases hset
      · refine ⟨hclose, first, opening, ranges ++ p.tokens c (Position.start.advanceOver before),
          by simp, hopening, fun t ht => ?_⟩
        rcases List.mem_append.mp ht with ht | ht
        · exact hranges t ht
        · obtain ⟨l, hl, rfl⟩ := Piece.mem_tokens_iff.mp ht
          exact hrange l hl

/-- A piece that is no word is a gap. -/
theorem Behind.gap {before : List Char} {earlier tokens : List Token} {ctx : Context}
    {position : Position} {c : Char} {cs : List Char} {p : Piece} {s' : Spot}
    (h : Behind before earlier ⟨ctx, position, c :: cs⟩) (hform : Form ctx c cs p)
    (hsilent : p.lexeme = none) (htail : Cuts ⟨ctx.after p.lexeme, p.stop c position,
      cs.drop p.tail.length⟩ tokens s') (hfinish : s'.rest = []) {i : Nat}
    (hle : before.length ≤ i) (hlt : i < (before ++ c :: p.tail).length) :
    Gap (before ++ c :: cs) (earlier ++ tokens) i := by
  obtain rfl : position = Position.start.advanceOver before := h.position
  have hnext := p.stop_eq c before
  have hfirst : (before ++ c :: cs)[before.length]? = some c := by simp
  have hearlier := h.stops (List.cons_ne_nil c cs)
  have hlater := htail.standsIn hnext
  cases hform with
  | blank hblank =>
    obtain rfl : i = before.length := by simp at hlt; omega
    exact .inl ⟨c, hfirst, hblank⟩
  | comma hset =>
    obtain rfl : i = before.length := by simp at hlt; omega
    obtain ⟨hclose, first, opening, ranges, rfl, hopening, hranges⟩ := h.set hset
    have hclose : ']' ∈ cs := (List.mem_cons.mp hclose).resolve_left (by decide)
    obtain ⟨ranges', closing, behind, rfl, hranges', hclosing, hle'⟩ :=
      htail.exists_closeSet hfinish hset hclose hnext
    refine .inr (.inr ⟨hfirst, first, opening, ranges ++ ranges', closing, behind, by simp,
      hopening, hclosing, fun t ht => ?_, hearlier opening (by simp), by simp at hle'; omega⟩)
    exact (List.mem_append.mp ht).elim (hranges t) (hranges' t)
  | @comment tail rest hset hname hline hrest =>
    have hword : ∀ t ∈ earlier ++ tokens, ∀ n, t.lexeme = .name n → t.stop ≠ before.length := by
      intro t ht n hn
      rcases List.mem_append.mp ht with ht | ht
      · exact h.name hname (List.cons_ne_nil _ _) t ht n hn
      · obtain ⟨hstands, hle'⟩ := hlater t ht
        have := hstands.start_lt_stop
        rw [List.length_append] at hle'
        omega
    refine .inr (.inl ⟨before.length, hle, hfirst, hword, fun k hk hki => ⟨?_, fun t ht => ?_⟩⟩)
    · have hk' : k - before.length < ('#' :: tail).length := by
        have hlength : i < before.length + ('#' :: tail).length := List.length_append ▸ hlt
        omega
      rw [List.getElem?_append_right hk, ← List.cons_append, List.getElem?_append_left hk']
      intro hnewline
      rcases List.mem_cons.mp (List.mem_of_getElem? hnewline) with hmem | hmem
      · exact absurd hmem (by decide)
      · exact hline hmem
    · rintro ⟨hstart, hstop⟩
      rcases List.mem_append.mp ht with ht | ht
      · have := hearlier t ht
        omega
      · have := (hlater t ht).2
        omega
  | _ => cases hsilent

/-- Where no token stands there is a gap. -/
theorem Cuts.gap {s s' : Spot} {tokens : List Token} (h : Cuts s tokens s')
    (hfinish : s'.rest = []) {before : List Char} {earlier : List Token}
    (hbehind : Behind before earlier s) {i : Nat} (hle : before.length ≤ i)
    (hlt : i < (before ++ s.rest).length) (hnone : ∀ t ∈ tokens, ¬t.Covers i) :
    Gap (before ++ s.rest) (earlier ++ tokens) i := by
  induction h generalizing before earlier with
  | none s =>
    rw [hfinish, List.append_nil] at hlt
    omega
  | @piece ctx position c cs p tokens s hpiece htail ih =>
    have hform := form_of_piece hpiece
    have hnext := hbehind.piece hform
    obtain rfl : position = Position.start.advanceOver before := hbehind.position
    by_cases hi : (before ++ c :: p.tail).length ≤ i
    · obtain ⟨rest, rfl⟩ := hform.exists_rest
      rw [List.drop_left] at ih hnext
      have hgap := ih hfinish hnext hi (by simpa using hlt)
        fun t ht => hnone t (List.mem_append_right _ ht)
      simpa using hgap
    · cases hl : p.lexeme with
      | none =>
        have hgap := hbehind.gap hform hl htail hfinish hle (Nat.lt_of_not_le hi)
        have htokens : p.tokens c (Position.start.advanceOver before) = [] := by
          simp [Piece.tokens, hl]
        rwa [htokens]
      | some l =>
        refine absurd ?_ (hnone _ (List.mem_append_left _ (Piece.mem_tokens_iff.mpr ⟨l, hl, rfl⟩)))
        refine ⟨(Position.offset_start_advanceOver before).trans_le hle, ?_⟩
        simp only [Piece.offset_stop]
        simp at hi
        omega

end Lexer

/-- The tokens of a text stand in it one after another, each where it says, and behind them it ends.
What a token tells of is what the word is written with. It stops where the text ends at the latest,
unless it is an operator of one character at the end of the text, which stops one place further. All
other characters are blank, or belong to a comment, or are commas between the ranges of a version
set. -/
theorem tokenize_spans {source : String} {stream : TokenStream}
    (h : tokenize source = .ok stream) :
    (stream.tokens.Pairwise fun t u => t.stop ≤ u.start.offset) ∧
      (∀ t ∈ stream.tokens, t.StandsIn source.toList) ∧
      (stream.finish.offset = source.toList.length ∧ stream.finish.IsPlaceIn source.toList) ∧
      ∀ i < source.toList.length, (∀ t ∈ stream.tokens, ¬t.Covers i) →
        Gap source.toList stream.tokens i := by
  obtain ⟨ctx, -, hcuts⟩ := Lexer.tokensFrom_ok_iff.mp h
  obtain ⟨cut, hcut, hfinish⟩ := hcuts.exists_append
  have hstart : Position.start = Position.start.advanceOver [] := rfl
  obtain rfl : source.toList = cut := by simpa using hcut
  have hbehind : Lexer.Behind [] [] ⟨.initial, .start, source.toList⟩ :=
    ⟨rfl, by simp, by simp, nofun⟩
  refine ⟨hcuts.pairwise hstart, fun t ht => (hcuts.standsIn hstart t ht).1, ⟨?_, ?_⟩,
    fun i hi hnone => ?_⟩
  · have hoffset := congrArg Position.offset hfinish
    rw [Position.offset_advanceOver] at hoffset
    simpa [Position.start] using hoffset
  · have hplace := Position.isPlaceIn_advanceOver source.toList []
    rw [List.append_nil] at hplace
    have hfinish : stream.finish = Position.start.advanceOver source.toList := hfinish
    rwa [hfinish]
  · exact hcuts.gap rfl hbehind (Nat.zero_le i) hi hnone

/-- Between the tokens stand a comma in a version set and a comment, and `<` tells of more than the
text. -/
theorem tokenize_spans_of_set_and_comment :
    let one : Version := ⟨[.number 1], "1"⟩
    let two : Version := ⟨[.number 2], "2"⟩
    let less : Token := ⟨.compare .lt, ⟨8, 2, 1⟩, 10⟩
    let stream : TokenStream :=
      ⟨[⟨.openSet, ⟨0, 1, 1⟩, 1⟩, ⟨.range "1" ⟨some one, some one, false⟩, ⟨1, 1, 2⟩, 2⟩,
        ⟨.range "2" ⟨some two, some two, false⟩, ⟨3, 1, 4⟩, 4⟩, ⟨.closeSet, ⟨4, 1, 5⟩, 5⟩, less],
        ⟨9, 2, 2⟩⟩
    tokenize "[1,2]#c\n<" = .ok stream ∧ less.EndsText "[1,2]#c\n<".toList ∧
      less.StandsIn "[1,2]#c\n<".toList ∧ Gap "[1,2]#c\n<".toList stream.tokens 2 ∧
      Gap "[1,2]#c\n<".toList stream.tokens 6 := by
  intro one two less stream
  have htokens : tokenize "[1,2]#c\n<" = .ok stream := by decide +kernel
  obtain ⟨-, hstands, -, hgap⟩ := tokenize_spans htokens
  exact ⟨htokens, by decide +kernel, hstands less (by decide), hgap 2 (by decide) (by decide),
    hgap 6 (by decide) (by decide)⟩

/-- An operator that is the last character of a text stops behind the place where the text ends. -/
theorem exists_token_stopping_behind_text :
    ∃ t : Token, tokenize "<" = .ok ⟨[t], ⟨1, 1, 2⟩⟩ ∧ t.start.offset = 0 ∧ t.stop = 2 :=
  ⟨⟨.compare .lt, ⟨0, 1, 1⟩, 2⟩, by decide +kernel, rfl, rfl⟩

end Requirements
