import Mathlib.Tactic.Lemma
import Requirements.Proofs.Token.Spans

/-!
# Texts on lines of their own

A line break ends every piece. So two texts with a line break between them have the words of the one
and then those of the other; and a text can be parted in front of any of its words, unless that is
the opening of a feature list or the text stands inside of one there.
-/

namespace Requirements

/-- The text is cut into the words. -/
def HasWords (text : String) (words : List Lexeme) : Prop :=
  ∃ stream, tokenize text = .ok stream ∧ stream.tokens.map Token.lexeme = words

namespace Lexer

open Text

/-! ### Regions behind words -/

/-- The region behind the words. -/
def Region.behind (r : Region) (words : List Lexeme) : Region :=
  words.foldl (fun r l => r.after (some l)) r

/-- The region behind two parts is the one behind the second, from behind the first. -/
lemma Region.behind_append (r : Region) (words more : List Lexeme) :
    r.behind (words ++ more) = (r.behind words).behind more :=
  List.foldl_append

/-- The words cut from a text alone decide the region behind it. -/
lemma Cuts.region_eq {s s' : Spot} {tokens : List Token} (h : Cuts s tokens s') :
    s'.context.region = s.context.region.behind (tokens.map Token.lexeme) := by
  induction h with
  | none s => rfl
  | @piece ctx position c cs p tokens s _ _ ih =>
    rw [ih, List.map_append, p.map_lexeme_tokens, Region.behind_append, Context.region_after]
    cases p.lexeme <;> rfl

/-- The context behind a piece does not depend on whether a name ended in front of it. -/
theorem Context.after_eq_of_region {ctx ctx' : Context} (h : ctx'.region = ctx.region)
    (l : Option Lexeme) : ctx'.after l = ctx.after l := by
  obtain ⟨inSet, depth, afterName⟩ := ctx
  obtain ⟨inSet', depth', afterName'⟩ := ctx'
  obtain ⟨rfl, rfl⟩ : inSet' = inSet ∧ depth' = depth := by simpa [Context.region] using h
  unfold Context.after
  split <;> rfl

/-! ### Sets that are closed -/

/-- Where the text ends, no version set is open. -/
theorem Cuts.inSet_eq_false {s s' : Spot} {tokens : List Token} (h : Cuts s tokens s')
    (hfinish : s'.rest = []) (hclose : s.context.inSet = true → ']' ∈ s.rest) :
    s'.context.inSet = false := by
  induction h with
  | none s =>
    by_contra hset
    have hmem := hclose (by simpa using hset)
    rw [hfinish] at hmem
    cases hmem
  | @piece ctx position c cs p tokens s hpiece _ ih =>
    have hform := form_of_piece hpiece
    obtain ⟨rest, rfl⟩ := hform.exists_rest
    rw [List.drop_left] at ih
    exact ih hfinish (hform.closes hclose)

/-- If a piece is cut off first, what is cut starts with it. -/
theorem Cuts.exists_cut {s s' : Spot} {tokens : List Token} (h : Cuts s tokens s') {c : Char}
    {tail cs : List Char} (hcs : c :: (tail ++ s.rest) = cs ++ s'.rest) :
    ∃ cut, s.rest = cut ++ s'.rest ∧ cs = c :: (tail ++ cut) := by
  obtain ⟨cut, hcut, -⟩ := h.exists_append
  refine ⟨cut, hcut, ?_⟩
  have hall : cs ++ s'.rest = c :: (tail ++ cut) ++ s'.rest := by
    rw [← hcs, hcut]
    simp
  exact List.append_cancel_right hall

/-- Between a place inside of a version set and a place outside of version sets, the set is
closed. -/
theorem Cuts.mem_of_inSet {s s' : Spot} {tokens : List Token} (h : Cuts s tokens s')
    {cs : List Char} (hcs : s.rest = cs ++ s'.rest) (hset : s.context.inSet = true)
    (hset' : s'.context.inSet = false) : ']' ∈ cs := by
  induction h generalizing cs with
  | none s =>
    rw [hset] at hset'
    cases hset'
  | @piece ctx position c ds p tokens s hpiece htail ih =>
    have hform := form_of_piece hpiece
    obtain ⟨rest, rfl⟩ := hform.exists_rest
    rw [List.drop_left] at ih htail
    obtain ⟨cut, hrest, rfl⟩ := htail.exists_cut hcs
    rcases hform.inside hset with rfl | ⟨hinside, -, -⟩
    · have hchar : [c] = "]".toList := hform.writtenAs (l := .closeSet) rfl
      cases hchar
      exact List.mem_cons_self
    · have := ih hrest hinside hset'
      simp [this]

/-! ### Pieces in front of a line break -/

/-- The text ends, or a line break comes next. -/
def Breaks (rest : List Char) : Prop :=
  ∀ c, rest.head? = some c → c = '\n'

/-- Where a line breaks, a name ends. -/
lemma Breaks.endsName {rest : List Char} (h : Breaks rest) : EndsName rest := by
  intro c hc
  obtain rfl := h c hc
  decide

/-- A name goes on with a character of a word, or with two colons and such a character. -/
theorem nameTail_eq_nil_iff {cs : List Char} :
    nameTail cs = [] ↔ (∀ c, cs.head? = some c → isWord c = false) ∧
      ∀ c rest, cs = ':' :: ':' :: c :: rest → isWord c = false := by
  fun_cases nameTail cs with
  | case1 c cs hword => simp [hword]
  | case2 c cs hword =>
    have hcolon : isWord ':' = false := by decide
    simpa [hcolon] using hword
  | case3 c cs _ hword => simp [hword]
  | case4 c cs hne hword =>
    simp only [List.head?_cons, Option.some.injEq, forall_eq', true_iff]
    refine ⟨by simpa using hword, fun d rest heq => ?_⟩
    obtain ⟨rfl, rfl⟩ := List.cons.inj heq
    exact (hne d rest rfl rfl).elim
  | case5 => simp

/-- What does not continue a name does not do so when it is broken off. -/
theorem nameTail_eq_nil_of_breaks {cs x y : List Char} (hy : Breaks y)
    (h : nameTail (cs ++ x) = []) : nameTail (cs ++ y) = [] := by
  obtain ⟨hhead, hcolons⟩ := nameTail_eq_nil_iff.mp h
  refine nameTail_eq_nil_iff.mpr ⟨fun c hc => ?_, fun c rest heq => ?_⟩
  · cases cs with
    | nil => exact (hy.endsName c hc).1
    | cons d cs => exact hhead c hc
  · -- The two colons and the character behind them stand in `cs` or are the first of `y`.
    rcases List.append_eq_cons_iff.mp heq with ⟨rfl, rfl⟩ | ⟨ds, rfl, hds⟩
    · exact absurd (hy ':' rfl) (by decide)
    rcases List.append_eq_cons_iff.mp hds.symm with ⟨rfl, rfl⟩ | ⟨es, rfl, hes⟩
    · exact absurd (hy ':' rfl) (by decide)
    rcases List.append_eq_cons_iff.mp hes.symm with ⟨rfl, rfl⟩ | ⟨fs, rfl, -⟩
    · exact (hy.endsName c rfl).1
    · exact hcolons c (fs ++ x) rfl

/-- A name that ends in front of a text ends there when the text is broken off. -/
theorem nameTail_of_breaks {tail cs x y : List Char} (hy : Breaks y)
    (h : nameTail (tail ++ (cs ++ x)) = tail) : nameTail (tail ++ (cs ++ y)) = tail := by
  fun_induction nameTail tail with
  | case1 c tail hword ih =>
    simp only [List.cons_append, nameTail, hword, if_true, List.cons.injEq, true_and] at h ⊢
    exact ih h
  | case2 c tail hword => simp [nameTail, hword] at h
  | case3 c tail _ hword ih =>
    rw [List.cons_append, nameTail_cons _ hword] at h ⊢
    rw [ih (List.cons.inj h).2]
  | case4 c tail hne hword =>
    rw [List.cons_append, nameTail.eq_def] at h
    split at h
    · -- Two colons at the front would be those of `tail`.
      rename_i heq
      split at h
      · obtain ⟨rfl, -⟩ := List.cons.inj heq
        exact (hne _ _ rfl (List.cons.inj h).2.symm).elim
      · cases h
    · rename_i heq
      cases heq
      rw [if_neg hword] at h
      cases h
    · cases h
  | case5 =>
    have hbroken : nameTail (cs ++ y) = [] := nameTail_eq_nil_of_breaks hy h
    exact hbroken

/-- No piece outside of a version set starts with a point. -/
theorem Form.ne_point {ctx : Context} {c : Char} {cs : List Char} {p : Piece} (h : Form ctx c cs p)
    (hset : ctx.inSet = false) : c ≠ '.' := by
  rintro rfl
  have hpoint (c : Char) (d : Char) : c = '.' → pairOperator? c d = none := by
    rintro rfl
    simp [pairOperator?]
  generalize hc : '.' = c at h
  cases h with
  | blank hblank =>
    subst hc
    exact absurd hblank (by decide)
  | range hin | comma hin | closeSet hin => simp [hin] at hset
  | comment | openFeatures | openSet => cases hc
  | quoted _ hquote => rcases hquote with rfl | rfl <;> cases hc
  | pair _ hpair => simp [hpoint _ _ hc.symm] at hpair
  | single _ hsingle =>
    subst hc
    cases hsingle
  | @mark m => cases m <;> cases hc
  | version _ hliteral htext =>
    subst hc
    obtain ⟨d, ds, hds, hdigit⟩ := hliteral.exists_cons
    rw [htext] at hds
    cases hds
    exact absurd hdigit (by decide)
  | word _ hstart =>
    subst hc
    exact absurd hstart (by decide)

/-- What comes first in a text that is broken off is a line break, or it came first before. -/
theorem head?_of_breaks {cs y : List Char} (x : List Char) (hy : Breaks y) {d : Char}
    (hd : (cs ++ y).head? = some d) :
    d = '\n' ∨ (cs ++ x).head? = some d ∧ cs.head? = some d := by
  cases cs with
  | nil => exact .inl (hy d hd)
  | cons c cs => exact .inr ⟨hd, hd⟩

/-- No text that is cut outside version sets starts with a point. -/
lemma Cuts.head?_ne_point {s s' : Spot} {tokens : List Token} (h : Cuts s tokens s')
    {cs : List Char} (hcs : s.rest = cs ++ s'.rest) (hset : s.context.inSet = false) :
    cs.head? ≠ some '.' := by
  intro hpoint
  cases h with
  | none =>
    obtain rfl : cs = [] := List.self_eq_append_left.mp hcs
    cases hpoint
  | @piece ctx position c ds p _ _ hpiece =>
    have hc : (c :: ds).head? = some '.' := by
      rw [show c :: ds = _ from hcs]
      cases cs with
      | nil => cases hpoint
      | cons d cs => exact hpoint
    exact (form_of_piece hpiece).ne_point hset (Option.some.inj hc)

section

variable {ctx : Context} {c : Char} {rest : List Char} {p : Piece}
  (h : Form ctx c (p.tail ++ rest) p)

include h

/-- A comment reaches to the end of its line. -/
theorem Form.newline_behind_comment (hnone : p.lexeme = none) (hc : c = '#') {d : Char}
    (hd : rest.head? = some d) : d = '\n' := by
  generalize hcs : p.tail ++ rest = cs at h
  cases h with
  | comment _ _ _ hline => exact hline d (List.append_cancel_left hcs ▸ hd)
  | blank hblank =>
    subst hc
    exact absurd hblank (by decide)
  | comma => cases hc
  | _ => cases hnone

/-- A range is cut up to a character that ends ranges. -/
lemma Form.endsRange_behind_range {text : String} {r : Version.Range}
    (hrange : p.lexeme = some (.range text r)) {d : Char} (hd : rest.head? = some d) :
    endsRange d = true := by
  generalize hcs : p.tail ++ rest = cs at h
  cases h with
  | range _ _ hends => exact hends d (List.append_cancel_left hcs ▸ hd)
  | pair _ hpair =>
    rcases pairOperator?_cases hpair with ⟨op, rfl, -⟩ | ⟨op, rfl⟩ <;> cases hrange
  | single _ hsingle =>
    rcases singleOperator?_cases hsingle with rfl | rfl | rfl <;> cases hrange
  | word =>
    unfold wordLexeme at hrange
    split at hrange <;> cases hrange
  | _ => cases hrange

/-- An operator of one character is not the first of an operator of two. -/
theorem Form.no_pair_behind_single {l : Lexeme} (hsingle : singleOperator? c = some l)
    (hl : p.lexeme = some l) : rest.head?.bind (pairOperator? c) = none := by
  have hcases := singleOperator?_cases hsingle
  generalize hcs : p.tail ++ rest = cs at h
  cases h with
  | single _ _ hnone =>
    obtain rfl : rest = _ := hcs
    exact hnone
  | pair _ hpair =>
    cases hl
    rcases pairOperator?_cases hpair with ⟨op, rfl, hlt, hgt⟩ | ⟨op, rfl⟩
    · simp [hlt, hgt] at hcases
    · simp at hcases
  | word =>
    unfold wordLexeme at hl
    split at hl <;> cases hl <;> simp at hcases
  | @mark m _ _ hm =>
    cases hl
    simp [hm] at hcases
  | _ => cases hl <;> simp at hcases

/-- A version stands outside of version sets and takes in all letters of its suffix. -/
theorem Form.outside_of_version {v : Version} (hv : p.lexeme = some (.version v)) :
    ctx.inSet = false ∧ ∀ d, rest.head? = some d → isSuffixChar d = false := by
  generalize hcs : p.tail ++ rest = cs at h
  cases h with
  | version hin _ _ hsuffix => exact ⟨hin, List.append_cancel_left hcs ▸ hsuffix⟩
  | pair _ hpair =>
    rcases pairOperator?_cases hpair with ⟨op, rfl, -⟩ | ⟨op, rfl⟩ <;> cases hv
  | single _ hsingle =>
    rcases singleOperator?_cases hsingle with rfl | rfl | rfl <;> cases hv
  | word =>
    unfold wordLexeme at hv
    split at hv <;> cases hv
  | _ => cases hv

end

/-- A piece that stops in front of a text stops there when the text is broken off. -/
theorem Form.stops_of_breaks {ctx : Context} {c : Char} {cs x y : List Char} {p : Piece}
    (h : Form ctx c (p.tail ++ (cs ++ x)) p) (hy : Breaks y)
    (hclose : p.lexeme = some .openSet → ']' ∈ cs)
    (hpoint : (ctx.after p.lexeme).inSet = false → cs.head? ≠ some '.') :
    Stops c p (cs ++ y) where
  comment hnone hc d hd := by
    rcases head?_of_breaks x hy hd with hbreak | ⟨hd, -⟩
    · exact hbreak
    · exact h.newline_behind_comment hnone hc hd
  set hset := List.mem_append_left y (hclose hset)
  range text r hrange d hd := by
    rcases head?_of_breaks x hy hd with rfl | ⟨hd, -⟩
    · decide
    · exact h.endsRange_behind_range hrange hd
  operator l hsingle hl := by
    have hnone := h.no_pair_behind_single hsingle hl
    cases hd : (cs ++ y).head? with
    | none => rfl
    | some d =>
      rcases head?_of_breaks x hy hd with rfl | ⟨hd, -⟩
      · simp [pairOperator?]
      · rwa [hd] at hnone
  version v hv d hd := by
    rcases head?_of_breaks x hy hd with rfl | ⟨hd, hd'⟩
    · decide
    obtain ⟨hin, hsuffix⟩ := h.outside_of_version hv
    rw [hv] at hpoint
    have hne : d ≠ '.' := fun heq => hpoint hin (heq ▸ hd')
    simp [Version.isLiteralChar, hsuffix d hd, hne]
  word s hs := nameTail_of_breaks hy (h.tail_eq_nameTail hs).symm

/-- A text that was cut from one place to another is cut in the same way when it is broken off at
the second place, from any position and in any context of the same region. -/
theorem Cuts.breakOff {s s' : Spot} {tokens : List Token} (h : Cuts s tokens s') {cs y : List Char}
    (hcs : s.rest = cs ++ s'.rest) (hset : s'.context.inSet = false) (hy : Breaks y)
    {ctx : Context} (hregion : ctx.region = s.context.region)
    (hname : ctx.afterName = s.context.afterName ∨
      ctx.afterName = false ∧ (tokens.map Token.lexeme).head? ≠ some .openFeatures)
    (position : Position) :
    ∃ (ctx' : Context) (position' : Position) (tokens' : List Token),
      ctx'.region = s'.context.region ∧ Cuts ⟨ctx, position, cs ++ y⟩ tokens' ⟨ctx', position', y⟩ ∧
      tokens'.map Token.lexeme = tokens.map Token.lexeme := by
  induction h generalizing cs ctx position with
  | none s =>
    obtain rfl : cs = [] := List.self_eq_append_left.mp hcs
    exact ⟨ctx, position, [], hregion, .none _, rfl⟩
  | @piece ctx₀ position₀ c ds p tokens s hpiece htail ih =>
    have hform := form_of_piece hpiece
    obtain ⟨rest, rfl⟩ := hform.exists_rest
    rw [List.drop_left] at ih htail
    obtain ⟨cut, hcut, rfl⟩ := htail.exists_cut hcs
    obtain rfl : rest = cut ++ s.rest := hcut
    have hstops : Stops c p (cut ++ y) := by
      refine hform.stops_of_breaks hy (fun hopen => ?_) fun hin => htail.head?_ne_point rfl hin
      refine htail.mem_of_inSet rfl ?_ hset
      rw [hopen]
      rfl
    have hopens : p.lexeme = some .openFeatures → ctx.afterName = true := by
      intro hopen
      rcases hname with hname | ⟨-, hne⟩
      · exact hname.trans (hform.afterName_of_openFeatures hopen)
      · rw [List.map_append, p.map_lexeme_tokens, hopen] at hne
        exact absurd rfl hne
    have hsilent : p.lexeme = Option.none → ctx.afterName = true → ctx₀.afterName = true := by
      intro _ hafter
      rcases hname with hname | ⟨hname, -⟩
      · exact hname.symm.trans hafter
      · rw [hname] at hafter
        cases hafter
    obtain ⟨overhang, hrecut⟩ := hform.recut hstops hregion hopens hsilent
    let q : Piece := ⟨p.lexeme, p.tail, overhang⟩
    obtain ⟨ctx', position', tokens', hregion', hcuts, hwords⟩ :=
      ih rfl hset rfl (.inl rfl) (q.stop c position)
    refine ⟨ctx', position', q.tokens c position ++ tokens', hregion', ?_, ?_⟩
    · rw [List.cons_append, List.append_assoc]
      refine .piece hrecut ?_
      rw [List.drop_left, Context.after_eq_of_region hregion]
      exact hcuts
    · rw [List.map_append, List.map_append, q.map_lexeme_tokens, p.map_lexeme_tokens, hwords]

/-- Where tokens are parted, so is the text that they were cut off. -/
theorem Cuts.exists_part {s s' : Spot} {front back : List Token} (h : Cuts s (front ++ back) s') :
    ∃ s₁, Cuts s front s₁ ∧ Cuts s₁ back s' := by
  generalize htokens : front ++ back = tokens at h
  induction h generalizing front with
  | none s =>
    obtain ⟨rfl, rfl⟩ := List.append_eq_nil_iff.mp htokens
    exact ⟨s, .none s, .none s⟩
  | @piece ctx position c cs p tokens s hpiece htail ih =>
    cases front with
    | nil =>
      rw [List.nil_append] at htokens
      exact ⟨_, .none _, htokens ▸ .piece hpiece htail⟩
    | cons t front =>
      -- A piece is one token at most, so that the tokens in front start with those of the piece.
      obtain ⟨others, hfront, hrest⟩ :
          ∃ others, t :: front = p.tokens c position ++ others ∧ others ++ back = tokens := by
        cases hp : p.lexeme with
        | none =>
          refine ⟨t :: front, ?_, ?_⟩
          · simp [Piece.tokens, hp]
          · simpa [Piece.tokens, hp] using htokens
        | some l =>
          simp only [Piece.tokens, hp, Option.map_some, Option.toList_some, List.cons_append,
            List.cons.injEq] at htokens ⊢
          exact ⟨front, ⟨htokens.1, rfl⟩, htokens.2⟩
      obtain ⟨s₁, hbefore, hbehind⟩ := ih hrest
      exact ⟨s₁, hfront ▸ .piece hpiece hbefore, hbehind⟩

end Lexer

/-! ### Words of texts -/

/-- A text has words exactly if it is cut into tokens that carry them. -/
lemma hasWords_iff {text : String} {words : List Lexeme} :
    HasWords text words ↔
      (tokenize text).map (fun stream => stream.tokens.map Token.lexeme) = .ok words := by
  unfold HasWords
  cases tokenize text with
  | error e => simp [Except.map]
  | ok stream => simp [Except.map]

instance (text : String) (words : List Lexeme) : Decidable (HasWords text words) :=
  decidable_of_iff _ hasWords_iff.symm

namespace HasWords

open Lexer

/-- A text has no other words than those of its tokens. -/
lemma eq_of_tokenize {text : String} {words : List Lexeme} (h : HasWords text words)
    {stream : TokenStream} (htokenize : tokenize text = .ok stream) :
    stream.tokens.map Token.lexeme = words := by
  obtain ⟨stream', htokenize', hwords⟩ := h
  rw [htokenize] at htokenize'
  cases htokenize'
  exact hwords

/-- A text has the words that it is cut into up to its end, which lies outside of version sets and
feature lists. -/
theorem iff_cuts {text : String} {words : List Lexeme} :
    HasWords text words ↔ ∃ (ctx : Context) (position : Position) (tokens : List Token),
      ctx.region = .plain ∧ Cuts ⟨.initial, .start, text.toList⟩ tokens ⟨ctx, position, []⟩ ∧
      tokens.map Token.lexeme = words := by
  constructor
  · rintro ⟨stream, htokenize, hwords⟩
    obtain ⟨ctx, hdepth, hcuts⟩ := tokensFrom_ok_iff.mp htokenize
    have hset : ctx.inSet = false := hcuts.inSet_eq_false rfl nofun
    refine ⟨ctx, stream.finish, stream.tokens, ?_, hcuts, hwords⟩
    rw [Context.region, hset, hdepth]
    rfl
  · rintro ⟨ctx, position, tokens, hregion, hcuts, hwords⟩
    have hdepth : ctx.depth = 0 := congrArg Region.depth hregion
    exact ⟨⟨tokens, position⟩, tokensFrom_ok_iff.mpr ⟨ctx, hdepth, hcuts⟩, hwords⟩

/-- What a text spells are its words. -/
theorem of_spells {text : String} {words : List Lexeme}
    (h : Spells .plain .plain text.toList [] words) : HasWords text words := by
  obtain ⟨ctx, tokens, hregion, hcuts, hwords, -⟩ := h.cuts .initial .start rfl
  rw [List.append_nil] at hcuts
  exact iff_cuts.mpr ⟨ctx, _, tokens, hregion, hcuts, hwords⟩

/-- Two texts with a line break between them have the words of the first, then those of the
second. -/
theorem lines {text more : String} {words others : List Lexeme} (h : HasWords text words)
    (h' : HasWords more others) : HasWords (text ++ "\n" ++ more) (words ++ others) := by
  obtain ⟨ctx, position, tokens, hregion, hcuts, hwords⟩ := iff_cuts.mp h
  obtain ⟨ctx', position', tokens', hregion', hcuts', hothers⟩ := iff_cuts.mp h'
  have hset : ctx.inSet = false := congrArg Region.inSet hregion
  have hset' : ctx'.inSet = false := congrArg Region.inSet hregion'
  obtain ⟨ctx₁, position₁, tokens₁, hregion₁, hcuts₁, hwords₁⟩ :=
    hcuts.breakOff (y := '\n' :: more.toList) (List.append_nil _).symm hset
      (by rintro c ⟨⟩; rfl) rfl (.inl rfl) .start
  have hplain : ctx₁.region = .plain := hregion₁.trans hregion
  have hinitial : ctx₁.after none = .initial := by
    obtain ⟨inSet, depth, afterName⟩ := ctx₁
    cases hplain
    rfl
  obtain ⟨ctx₂, position₂, tokens₂, hregion₂, hcuts₂, hwords₂⟩ :=
    hcuts'.breakOff (y := []) (List.append_nil _).symm hset' nofun rfl (.inl rfl)
      (position₁.advance '\n')
  rw [List.append_nil] at hcuts₂
  have hnewline := cuts_newline hplain position₁ more.toList
  rw [hinitial] at hnewline
  refine iff_cuts.mpr ⟨ctx₂, position₂, tokens₁ ++ ([] ++ tokens₂), hregion₂.trans hregion', ?_, ?_⟩
  · have hall := hcuts₁.trans (hnewline.trans hcuts₂)
    simpa using hall
  · simp [hwords₁, hwords₂, hwords, hothers]

/-- A text is parted between any two of its words, outside of version sets and feature lists. -/
theorem part {text : String} {words others : List Lexeme} (h : HasWords text (words ++ others))
    (hregion : Region.plain.behind words = .plain) (hopen : others.head? ≠ some .openFeatures) :
    ∃ front back, text = front ++ back ∧ HasWords front words ∧ HasWords back others := by
  obtain ⟨ctx, position, tokens, hplain, hcuts, hwords⟩ := iff_cuts.mp h
  obtain ⟨before, behind, rfl, rfl, rfl⟩ := List.map_eq_append_iff.mp hwords
  obtain ⟨⟨ctx₁, position₁, rest⟩, hbefore, hbehind⟩ := hcuts.exists_part
  obtain ⟨cs, hcs, -⟩ := hbefore.exists_append
  have hregion₁ : ctx₁.region = .plain := hbefore.region_eq.trans hregion
  obtain ⟨ctx₂, position₂, tokens₂, hregion₂, hcuts₂, hwords₂⟩ :=
    hbefore.breakOff (y := []) hcs (congrArg Region.inSet hregion₁) nofun rfl (.inl rfl) .start
  have hinitial : Context.initial.region = ctx₁.region := hregion₁.symm
  obtain ⟨ctx₃, position₃, tokens₃, hregion₃, hcuts₃, hwords₃⟩ :=
    hbehind.breakOff (y := []) (List.append_nil _).symm (congrArg Region.inSet hplain) nofun
      hinitial (.inr ⟨rfl, hopen⟩) .start
  rw [List.append_nil] at hcuts₂ hcuts₃
  refine ⟨String.ofList cs, String.ofList rest, ?_, iff_cuts.mpr ?_, iff_cuts.mpr ?_⟩
  · rw [← String.ofList_append, ← show text.toList = cs ++ rest from hcs, String.ofList_toList]
  · rw [String.toList_ofList]
    exact ⟨ctx₂, position₂, tokens₂, hregion₂.trans hregion₁, hcuts₂, hwords₂⟩
  · rw [String.toList_ofList]
    exact ⟨ctx₃, position₃, tokens₃, hregion₃.trans hplain, hcuts₃, hwords₃⟩

end HasWords

end Requirements
