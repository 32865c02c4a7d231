import Mathlib.Data.List.Infix
import Mathlib.Tactic.Lemma
import Requirements.Proofs.Grammar.Segments
import Requirements.Proofs.Grammar.Parentheses
import Requirements.Proofs.Token.Lines

/-!
# Pairs of parentheses

A pair of grouping parentheses is recognised among the tokens of a text: the one closes the other,
and the opening one does not belong to a probe. In the text of an expression these are the
parentheses around operands. Without such a pair, the text has the same words but for the two.
-/

namespace Requirements

/-- Among the words every parenthesis is closed that is opened, and no other. -/
structure Balanced (words : List Lexeme) : Prop where
  order : ∀ front ∈ words.inits, 0 ≤ unclosed front
  total : unclosed words = 0

/-- A pair of grouping parentheses among tokens: the one closes the other. The parenthesis that
opens the arguments of a probe follows a name, and the one that opens a feature list is another
word. -/
structure Group (tokens : List Token) where
  before : List Token
  opening : Token
  inside : List Token
  closing : Token
  behind : List Token
  eq_tokens : before ++ opening :: (inside ++ closing :: behind) = tokens
  opens : opening.lexeme = .mark .openParen
  closes : closing.lexeme = .mark .closeParen
  balanced : Balanced (inside.map Token.lexeme)
  apart : ∀ t ∈ before.getLast?, ∀ s, t.lexeme ≠ .name s

/-- The text without the two parentheses. -/
def Group.dropFrom {tokens : List Token} (g : Group tokens) (text : String) : String :=
  String.ofList ((text.toList.eraseIdx g.closing.start.offset).eraseIdx g.opening.start.offset)

namespace Grammar

open Lexer

/-! ### Words in a row of segments -/

/-- Every word of a row stands in one of its segments. -/
theorem exists_segment {segments : List Segment} {front rest : List Lexeme} {l : Lexeme}
    (h : wordsOf segments = front ++ l :: rest) :
    ∃ before s behind first last, segments = before ++ s :: behind ∧ s.words = first ++ l :: last ∧
      front = wordsOf before ++ first ∧ rest = last ++ wordsOf behind := by
  induction segments generalizing front with
  | nil => simp at h
  | cons s segments ih =>
    rw [wordsOf_cons] at h
    have hlater (more : List Lexeme) (hfront : front = s.words ++ more)
        (hmore : wordsOf segments = more ++ l :: rest) :
        ∃ before t behind first last, s :: segments = before ++ t :: behind ∧
          t.words = first ++ l :: last ∧ front = wordsOf before ++ first ∧
          rest = last ++ wordsOf behind := by
      obtain ⟨before, t, behind, first, last, rfl, hwords, rfl, hrest⟩ := ih hmore
      exact ⟨s :: before, t, behind, first, last, rfl, hwords, by simp [hfront], hrest⟩
    rcases List.append_eq_append_iff.mp h with ⟨more, hfront, hmore⟩ | ⟨more, hwords, hmore⟩
    · exact hlater more hfront hmore
    · cases more with
      | nil => exact hlater [] (by simpa using hwords.symm) (by simpa using hmore.symm)
      | cons k more =>
        obtain ⟨rfl, hrest⟩ := List.cons.inj hmore
        exact ⟨[], s, segments, front, more, rfl, hwords, rfl, hrest⟩

/-- A segment of one word is split at this word only. -/
lemma eq_of_singleton {k l : Lexeme} {first last : List Lexeme} (h : [k] = first ++ l :: last) :
    first = [] ∧ l = k ∧ last = [] := by
  rcases List.singleton_eq_append_iff.mp h with ⟨hfirst, hlast⟩ | ⟨-, hnil⟩
  · obtain ⟨hl, hlast⟩ := List.cons.inj hlast
    exact ⟨hfirst, hl, hlast⟩
  · cases hnil

/-- A parenthesis that is opened and does not follow a name is a segment. -/
theorem Row.exists_opening {segments : List Segment} (h : Row segments)
    {front rest : List Lexeme} (hwords : wordsOf segments = front ++ .mark .openParen :: rest)
    (hapart : ∀ s, front.getLast? ≠ some (.name s)) :
    ∃ before behind, segments = before ++ .opening :: behind ∧ front = wordsOf before ∧
      rest = wordsOf behind := by
  obtain ⟨before, s, behind, first, last, rfl, hs, rfl, rfl⟩ := exists_segment hwords
  have hsound := h.sound s (by simp)
  cases s with
  | opening =>
    obtain ⟨rfl, -, rfl⟩ := eq_of_singleton hs
    exact ⟨before, behind, rfl, List.append_nil _, rfl⟩
  | closing => cases (eq_of_singleton hs).2.1
  | joint text words =>
    have hflat : (Lexeme.mark .openParen).nesting = 0 :=
      hsound.2.1 _ (by simp [show words = _ from hs])
    cases hflat
  | operand text words =>
    obtain ⟨name, hname⟩ := hsound.2.opening first last hs
    exact absurd (by simp [hname]) (hapart name)

/-- A parenthesis that is closed behind balanced words is a segment. -/
theorem Row.exists_closing {segments : List Segment} (h : Row segments)
    {front rest : List Lexeme} (hwords : wordsOf segments = front ++ .mark .closeParen :: rest)
    (hbalanced : Balanced front) :
    ∃ before behind, segments = before ++ .closing :: behind ∧ front = wordsOf before ∧
      rest = wordsOf behind := by
  obtain ⟨before, s, behind, first, last, rfl, hs, rfl, rfl⟩ := exists_segment hwords
  have hsound := h.sound s (by simp)
  cases s with
  | opening => cases (eq_of_singleton hs).2.1
  | closing =>
    obtain ⟨rfl, -, rfl⟩ := eq_of_singleton hs
    exact ⟨before, behind, rfl, List.append_nil _, rfl⟩
  | joint text words =>
    have hflat : (Lexeme.mark .closeParen).nesting = 0 :=
      hsound.2.1 _ (by simp [show words = _ from hs])
    cases hflat
  | operand text words =>
    -- Within an operand, the parenthesis would close one that was opened there.
    have hopen : 0 < unclosed first := hsound.2.closing first last hs
    have hprefix : wordsOf before ∈ (wordsOf before ++ first).inits :=
      (List.mem_inits _ _).mpr (List.prefix_append _ _)
    have hbefore := hbalanced.order _ hprefix
    have htotal := hbalanced.total
    rw [unclosed_append] at htotal
    omega

/-! ### Where a parenthesis stands -/

/-- The mark that a segment is, if it is a parenthesis. -/
def Segment.mark? : Segment → Option Mark
  | opening => some .openParen
  | closing => some .closeParen
  | _ => none

/-- The token of a parenthesis in a row stands behind the characters in front of it. -/
theorem Row.exists_token {before behind : List Segment} {s : Segment} {m : Mark}
    (h : Row (before ++ s :: behind)) (hs : s.mark? = some m) {stream : TokenStream}
    (htokenize : tokenize (String.ofList (charsOf (before ++ s :: behind))) = .ok stream) :
    ∃ front t rest, stream.tokens = front ++ t :: rest ∧
      front.map Token.lexeme = wordsOf before ∧ t.start.offset = (charsOf before).length := by
  obtain ⟨hchars, hm, hregion, hends⟩ : s.chars = [m.char] ∧ m ≠ .assign ∧
      Region.plain.after (some (.mark m)) = .plain ∧ EndsExpr (m.char :: charsOf behind) := by
    cases s <;> cases hs <;> exact ⟨rfl, by decide, rfl, endsExpr_cons (by decide) _⟩
  obtain ⟨ctx, front, hctx, hfront, hbefore, -⟩ :=
    (h.left.spells hends).cuts .initial .start rfl
  let p : Piece := ⟨some (.mark m), [], 0⟩
  have hpiece : piece ctx m.char (charsOf behind) = .ok p := by
    rw [piece_outside hctx, plainPiece_mark ctx hm]
  have hctx' : (ctx.after (some (.mark m))).region = .plain := by
    rw [Context.region_after, hctx, hregion]
  have hnone : EndsExpr [] := nofun
  obtain ⟨ctx', rest, hctx'', hrest, -, -⟩ := (h.right.tail.spells hnone).cuts
    (ctx.after p.lexeme) (p.stop m.char (Position.start.advanceOver (charsOf before))) hctx'
  rw [List.append_nil] at hrest
  have hall : tokensFrom .initial .start (charsOf before ++ m.char :: charsOf behind) =
      .ok ⟨front ++ (p.tokens m.char (Position.start.advanceOver (charsOf before)) ++ rest), _⟩ :=
    tokensFrom_ok_iff.mpr
      ⟨ctx', congrArg Region.depth hctx'', hfront.trans (.piece hpiece hrest)⟩
  have htext : (String.ofList (charsOf (before ++ s :: behind))).toList =
      charsOf before ++ m.char :: charsOf behind := by
    simp [hchars]
  rw [tokenize, htext, hall] at htokenize
  cases htokenize
  exact ⟨front, _, rest, rfl, hbefore, Position.offset_start_advanceOver _⟩

/-- The token behind as many words is the same. -/
theorem token_eq {front front' rest rest' : List Token} {t t' : Token}
    (h : front ++ t :: rest = front' ++ t' :: rest')
    (hwords : front.map Token.lexeme = front'.map Token.lexeme) : t = t' := by
  have hlength : front.length = front'.length := by simpa using congrArg List.length hwords
  exact (List.cons.inj (List.append_inj h hlength).2).1

/-- A parenthesis stands as many characters into the text as the segments before it take. -/
lemma Row.offset_eq {before behind : List Segment} {s : Segment} {m : Mark}
    (h : Row (before ++ s :: behind)) (hs : s.mark? = some m) {stream : TokenStream}
    (htokenize : tokenize (String.ofList (charsOf (before ++ s :: behind))) = .ok stream)
    {front rest : List Token} {t : Token} (htokens : front ++ t :: rest = stream.tokens)
    (hfront : front.map Token.lexeme = wordsOf before) :
    t.start.offset = (charsOf before).length := by
  obtain ⟨front', t', rest', htokens', hfront', hoffset⟩ := h.exists_token hs htokenize
  rw [token_eq (htokens.trans htokens') (hfront.trans hfront'.symm), hoffset]

end Grammar

/-! ### Texts without a pair of parentheses -/

namespace Group

open Grammar Lexer
open Requirements.Expr (openings row_segments charsOf_segments)

/-- The words of the tokens, around the pair. -/
theorem words_eq {tokens : List Token} (g : Group tokens) :
    tokens.map Token.lexeme = g.before.map Token.lexeme ++ .mark .openParen ::
      (g.inside.map Token.lexeme ++ .mark .closeParen :: g.behind.map Token.lexeme) := by
  simp [← g.eq_tokens, g.opens, g.closes]

/-- The element behind as many others is the one that is taken out. -/
lemma eraseIdx_length {α : Type} (front rest : List α) (a : α) :
    (front ++ a :: rest).eraseIdx front.length = front ++ rest := by
  simp [List.eraseIdx_append_of_length_le]

/-- In a row of segments, a pair of grouping parentheses is two of the segments. -/
theorem exists_segments {segments : List Segment} (h : Row segments) {stream : TokenStream}
    (htokenize : tokenize (String.ofList (charsOf segments)) = .ok stream)
    (g : Group stream.tokens) :
    ∃ before inside behind,
      segments = before ++ .opening :: (inside ++ .closing :: behind) ∧
      g.dropFrom (String.ofList (charsOf segments)) =
        String.ofList (charsOf (before ++ (inside ++ behind))) := by
  have hhas : HasWords (String.ofList (charsOf segments)) (wordsOf segments) := by
    refine .of_spells ?_
    rw [String.toList_ofList]
    exact h.spells nofun
  have hwords := hhas.eq_of_tokenize htokenize
  have hapart (s : String) : (g.before.map Token.lexeme).getLast? ≠ some (.name s) := by
    rw [List.getLast?_map]
    intro hlast
    obtain ⟨t, ht, hname⟩ := Option.map_eq_some_iff.mp hlast
    exact g.apart t ht s hname
  obtain ⟨before, rest, rfl, hbefore, hrest⟩ :=
    h.exists_opening (hwords.symm.trans g.words_eq) hapart
  obtain ⟨inside, behind, rfl, hinside, -⟩ := h.right.tail.exists_closing hrest.symm g.balanced
  refine ⟨before, inside, behind, rfl, ?_⟩
  have hassoc : before ++ .opening :: (inside ++ .closing :: behind) =
      (before ++ .opening :: inside) ++ .closing :: behind := by simp
  have hopening : g.opening.start.offset = (charsOf before).length :=
    h.offset_eq (m := .openParen) rfl htokenize g.eq_tokens hbefore
  have hclosing : g.closing.start.offset = (charsOf (before ++ .opening :: inside)).length := by
    have htokens : (g.before ++ g.opening :: g.inside) ++ g.closing :: g.behind =
        stream.tokens := (List.append_assoc _ _ _).trans g.eq_tokens
    rw [hassoc] at h htokenize
    refine h.offset_eq (m := .closeParen) rfl htokenize htokens ?_
    simp [hbefore, hinside, g.opens, Segment.words]
  have hclosed : charsOf (before ++ .opening :: (inside ++ .closing :: behind)) =
      charsOf (before ++ .opening :: inside) ++ ')' :: charsOf behind := by
    simp [Segment.chars]
  have hopened : charsOf (before ++ .opening :: inside) ++ charsOf behind =
      charsOf before ++ '(' :: charsOf (inside ++ behind) := by
    simp [Segment.chars]
  rw [dropFrom, hopening, hclosing, String.toList_ofList, hclosed, eraseIdx_length, hopened,
    eraseIdx_length, charsOf_append before]

/-- Without a pair of grouping parentheses, the text of an expression spells its words but for the
two. -/
theorem exists_spelled {e : Expr} (he : e.Proper) {stream : TokenStream}
    (htokenize : tokenize e.format = .ok stream) (g : Group stream.tokens) :
    ∃ words, Spelled (g.dropFrom e.format) words ∧ words.Sublist e.words ∧
      openings words < openings e.words := by
  have hrow := row_segments he
  have htext : String.ofList (charsOf e.segments) = e.format := by
    rw [charsOf_segments, String.ofList_toList]
  obtain ⟨before, inside, behind, hsegments, hdrop⟩ := g.exists_segments hrow (htext ▸ htokenize)
  rw [htext] at hdrop
  rw [hsegments] at hrow
  have hwords := e.wordsOf_segments
  rw [hsegments] at hwords
  have hrow' : Row (before ++ (inside ++ behind)) := by
    have hopened := hrow.remove (.inl rfl)
    rw [← List.append_assoc] at hopened ⊢
    exact hopened.remove (.inr rfl)
  refine ⟨wordsOf (before ++ (inside ++ behind)), fun rest hrest => ?_, ?_, ?_⟩
  · rw [hdrop, String.toList_ofList]
    exact hrow'.spells hrest
  · rw [← hwords]
    simp [Segment.words]
  · rw [← hwords]
    simp [Segment.words]

end Group

end Requirements
