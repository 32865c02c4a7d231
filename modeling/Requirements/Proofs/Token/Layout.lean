import Mathlib.Tactic.Lemma
import Requirements.Proofs.Token.Spans

/-!
# The layout of a text

How the words of a text are set apart does not matter. With one blank between any two of them, and
nothing between a name and the opening of its feature list, the words are cut off one by one as they
were: no piece depends on what stood behind it, as long as it is followed by a blank.
-/

namespace Requirements

/-! ### Texts with one blank between words -/

namespace Token

/-- Whether the second token is the opening of the feature list of the first, a name. -/
def opens : Token → Token → Bool
  | ⟨.name _, _, _⟩, ⟨.openFeatures, _, _⟩ => true
  | _, _ => false

/-- A pair of tokens opens a feature list if a name is followed by the opening word. -/
lemma opens_iff {t u : Token} :
    t.opens u = true ↔ (∃ s, t.lexeme = .name s) ∧ u.lexeme = .openFeatures := by
  obtain ⟨l, -, -⟩ := t
  obtain ⟨k, -, -⟩ := u
  cases l <;> cases k <;> simp [opens]

/-- What stands between a token and the token before it, if there is one. -/
def separator : Option Token → Token → List Char
  | none, _ => []
  | some previous, t => if previous.opens t then [] else [' ']

/-- The slices of the tokens, each behind its separator. -/
def layoutBehind (cs : List Char) : Option Token → List Token → List Char
  | _, [] => []
  | previous, t :: rest => separator previous t ++ (t.slice cs ++ layoutBehind cs (some t) rest)

end Token

/-- The slices of the tokens of a text, joined by single blanks, but for the opening of a feature
list behind its name. -/
def TokenStream.layout (stream : TokenStream) (source : String) : String :=
  String.ofList (Token.layoutBehind source.toList none stream.tokens)

namespace Lexer

open Text

/-! ### Cutting a word off another text -/

/-- What may follow a word in a text with one blank between words. -/
def Follows (l : Lexeme) (rest : List Char) : Prop :=
  ∀ c, rest.head? = some c → c = ' ' ∨ c = '#' ∧ ∃ s, l = .name s

namespace Follows

variable {l : Lexeme} {rest : List Char}

/-- What may follow a word ends a name. -/
lemma endsName (h : Follows l rest) : EndsName rest := by
  intro c hc
  rcases h c hc with rfl | ⟨rfl, -⟩ <;> decide

/-- What may follow a word ends a version. -/
lemma endsLiteral (h : Follows l rest) : Version.EndsLiteral rest := by
  intro c hc
  rcases h c hc with rfl | ⟨rfl, -⟩ <;> decide

/-- Behind any word but a name stands a blank, or nothing. -/
theorem eq_blank (h : Follows l rest) (hl : ∀ s, l ≠ .name s) {c : Char}
    (hc : rest.head? = some c) : c = ' ' :=
  (h c hc).resolve_right fun ⟨_, s, hs⟩ => hl s hs

end Follows

/-- Every word stops in front of what may follow it. -/
theorem Form.stops_of_follows {ctx : Context} {c : Char} {cs : List Char} {p : Piece}
    (h : Form ctx c cs p) {l : Lexeme} (hl : p.lexeme = some l) {rest : List Char}
    (hrest : Follows l rest) (hclose : l = .openSet → ']' ∈ rest) : Stops c p rest where
  comment hnone := by
    rw [hl] at hnone
    cases hnone
  set hset := hclose (Option.some.inj (hl.symm.trans hset))
  range text r hrange d hd := by
    obtain rfl : l = .range text r := Option.some.inj (hl.symm.trans hrange)
    obtain rfl := hrest.eq_blank nofun hd
    decide
  operator k hsingle hk := by
    obtain rfl : l = k := Option.some.inj (hl.symm.trans hk)
    have hname : ∀ s, l ≠ .name s := by
      rintro s rfl
      cases isSingleOperator_of_singleOperator? hsingle
    cases hd : rest.head? with
    | none => rfl
    | some d =>
      obtain rfl := hrest.eq_blank hname hd
      simp [pairOperator?]
  version v hversion := hrest.endsLiteral
  word s hword := by
    rw [h.tail_eq_nameTail hword]
    exact nameTail_append cs hrest.endsName

/-! ### Cutting the laid out text -/

/-- Every character of a token stands in the laid out text. -/
theorem mem_layoutBehind {cs : List Char} {t : Token} {tokens : List Token} (ht : t ∈ tokens)
    {c : Char} (hc : c ∈ t.slice cs) (previous : Option Token) :
    c ∈ Token.layoutBehind cs previous tokens := by
  induction tokens generalizing previous with
  | nil => cases ht
  | cons u tokens ih =>
    rw [Token.layoutBehind, List.mem_append, List.mem_append]
    rcases List.mem_cons.mp ht with rfl | ht
    · exact .inr (.inl hc)
    · exact .inr (.inr (ih ht _))

/-- In a laid out text, a word is followed by a blank, or by the opening of its feature list. -/
theorem follows_layoutBehind {cs : List Char} (t : Token) {tokens : List Token}
    (h : ∀ u ∈ tokens, u.lexeme.WrittenAs (u.slice cs)) :
    Follows t.lexeme (Token.layoutBehind cs (some t) tokens) := by
  cases tokens with
  | nil => exact nofun
  | cons u tokens =>
    have hwritten := h u List.mem_cons_self
    intro c hc
    rw [Token.layoutBehind, Token.separator] at hc
    split at hc
    · rename_i hopens
      obtain ⟨hname, hu⟩ := Token.opens_iff.mp hopens
      rw [hu] at hwritten
      have hslice : u.slice cs = "#(".toList := hwritten
      rw [hslice] at hc
      cases hc
      exact .inr ⟨rfl, hname⟩
    · cases hc
      exact .inl rfl

/-- Only behind a name the context is one behind a name. -/
lemma exists_name_of_afterName {ctx : Context} {l : Option Lexeme}
    (h : (ctx.after l).afterName = true) : ∃ s, l = some (.name s) := by
  unfold Context.after at h
  split at h
  case h_2 s => exact ⟨s, rfl⟩
  all_goals cases h

/-- In the context `ctx`, the text `cs` is cut to its end into `words`, and the region is `r`
there. -/
def CutsInto (ctx : Context) (cs : List Char) (words : List Lexeme) (r : Region) : Prop :=
  ∀ position, ∃ (ctx' : Context) (position' : Position) (tokens : List Token), ctx'.region = r ∧
    Cuts ⟨ctx, position, cs⟩ tokens ⟨ctx', position', []⟩ ∧ tokens.map Token.lexeme = words

namespace CutsInto

variable {ctx : Context} {cs : List Char} {words : List Lexeme} {r : Region}

/-- The empty text is cut into no words. -/
lemma nil (ctx : Context) : CutsInto ctx [] [] ctx.region :=
  fun position => ⟨ctx, position, [], rfl, .none _, rfl⟩

/-- A piece is cut off in front of a text that is cut behind it. -/
lemma piece {c : Char} {p : Piece} (hpiece : piece ctx c (p.tail ++ cs) = .ok p)
    (h : CutsInto (ctx.after p.lexeme) cs words r) :
    CutsInto ctx (c :: (p.tail ++ cs)) (p.lexeme.toList ++ words) r := by
  intro position
  obtain ⟨ctx', position', tokens, hregion, hcuts, hwords⟩ := h (p.stop c position)
  refine ⟨ctx', position', p.tokens c position ++ tokens, hregion, .piece hpiece ?_, ?_⟩
  · rwa [List.drop_left]
  · rw [List.map_append, p.map_lexeme_tokens, hwords]

/-- A blank is passed over, after which no name stands directly before. -/
lemma blank (h : CutsInto (ctx.after none) cs words r) : CutsInto ctx (' ' :: cs) words r := by
  have hpiece : Lexer.piece ctx ' ' cs = .ok ⟨none, [], 0⟩ := by
    unfold Lexer.piece
    split <;> rfl
  exact CutsInto.piece (p := ⟨none, [], 0⟩) hpiece h

end CutsInto

/-- Wherever a text is cut into words, its layout is cut into the same words. -/
theorem Cuts.layout {s s' : Spot} {tokens : List Token} (h : Cuts s tokens s')
    (hfinish : s'.rest = []) {text before : List Char} (htext : text = before ++ s.rest)
    (hposition : s.position = Position.start.advanceOver before)
    (hset : s.context.inSet = true → ']' ∈ s.rest) {ctx : Context}
    (hregion : ctx.region = s.context.region) {previous : Option Token}
    (hname : s.context.afterName = true → ctx.afterName = true ∧
      ∃ t, previous = some t ∧ ∃ n, t.lexeme = .name n) :
    CutsInto ctx (Token.layoutBehind text previous tokens) (tokens.map Token.lexeme)
      s'.context.region := by
  induction h generalizing before ctx previous with
  | none s => exact hregion ▸ .nil ctx
  | @piece ctx₀ position₀ c cs p tokens s hpiece htail ih =>
    obtain rfl : position₀ = Position.start.advanceOver before := hposition
    have hform := form_of_piece hpiece
    obtain ⟨rest, rfl⟩ := hform.exists_rest
    rw [List.drop_left] at ih htail
    have hnext := p.stop_eq c before
    have htext' : text = (before ++ c :: p.tail) ++ rest := by simp [htext]
    have hset' : (ctx₀.after p.lexeme).inSet = true → ']' ∈ rest := hform.closes hset
    have hlater : ∀ t ∈ tokens, t.StandsIn text := fun t ht =>
      htext' ▸ (htail.standsIn hnext t ht).1
    cases hl : p.lexeme with
    | none =>
      rw [hl] at ih hset'
      simp only [Piece.tokens, hl, Option.map_none, Option.toList_none, List.nil_append]
      exact ih hfinish htext' hnext hset' hregion fun hafter => absurd hafter Bool.false_ne_true
    | some l =>
      rw [hl] at ih hset' htail
      let t : Token := ⟨l, Position.start.advanceOver before,
        (p.stop c (Position.start.advanceOver before)).offset + p.overhang⟩
      have htokens : p.tokens c (Position.start.advanceOver before) = [t] := by
        simp [Piece.tokens, hl, t]
      have hslice : t.slice text = c :: p.tail := by
        rw [htext]
        exact hform.slice_of_mem_tokens (by simp [htokens])
      have hclose : l = .openSet → ']' ∈ Token.layoutBehind text (some t) tokens := by
        rintro rfl
        obtain ⟨ranges, closing, behind, rfl, -, hclosing, -⟩ :=
          htail.exists_closeSet hfinish rfl (hset' rfl) hnext
        have hmem : closing ∈ ranges ++ closing :: behind := by simp
        have hwritten := (hlater closing hmem).writtenAs
        rw [hclosing] at hwritten
        have hclosed : closing.slice text = "]".toList := hwritten
        exact mem_layoutBehind hmem (by rw [hclosed]; decide) _
      have hfollows : Follows l (Token.layoutBehind text (some t) tokens) :=
        follows_layoutBehind t fun u hu => (hlater u hu).writtenAs
      -- Once its separator has been cut off, the word is cut off as before.
      have hword {ctx₁ : Context} (hregion₁ : ctx₁.region = ctx₀.region)
          (hname₁ : l = .openFeatures → ctx₁.afterName = true) :
          CutsInto ctx₁ (c :: (p.tail ++ Token.layoutBehind text (some t) tokens))
            (l :: tokens.map Token.lexeme) s.context.region := by
        obtain ⟨overhang, hrecut⟩ :=
          hform.recut (hform.stops_of_follows hl hfollows hclose) hregion₁
            (fun hopens => hname₁ (Option.some.inj (hl.symm.trans hopens)))
            (fun hnone => by simp [hl] at hnone)
        rw [hl] at hrecut
        refine CutsInto.piece (p := ⟨some l, p.tail, overhang⟩) hrecut ?_
        refine ih hfinish htext' hnext hset' ?_ fun hafter => ?_
        · rw [Context.region_after, Context.region_after, hregion₁]
        · obtain ⟨n, hn⟩ := exists_name_of_afterName hafter
          cases hn
          exact ⟨rfl, t, rfl, n, rfl⟩
      rw [htokens, List.singleton_append, Token.layoutBehind, hslice]
      by_cases hopens : l = .openFeatures
      · subst hopens
        obtain ⟨hafter, u, rfl, hu⟩ := hname (hform.afterName_of_openFeatures hl)
        rw [Token.separator, if_pos (Token.opens_iff.mpr ⟨hu, rfl⟩)]
        exact hword hregion fun _ => hafter
      · have hblank : Token.separator previous t = [] ∨ Token.separator previous t = [' '] := by
          cases previous with
          | none => exact .inl rfl
          | some u =>
            rw [Token.separator]
            split
            · exact .inl rfl
            · exact .inr rfl
        rcases hblank with hnone | hblank
        · rw [hnone]
          exact hword hregion fun h => absurd h hopens
        · rw [hblank]
          exact .blank (hword hregion fun h => absurd h hopens)

end Lexer

/-- Layout does not matter. Take the slices of the tokens of a text in order, with a single blank
between any two of them, except that nothing stands between a name and the opening of its feature
list. This is a text with the same words. -/
theorem tokenize_layout {source : String} {stream : TokenStream}
    (h : tokenize source = .ok stream) :
    ∃ stream', tokenize (stream.layout source) = .ok stream' ∧
      stream'.tokens.map Token.lexeme = stream.tokens.map Token.lexeme := by
  obtain ⟨ctx, hdepth, hcuts⟩ := Lexer.tokensFrom_ok_iff.mp h
  have hlayout : Lexer.CutsInto .initial (Token.layoutBehind source.toList none stream.tokens)
      (stream.tokens.map Token.lexeme) ctx.region :=
    hcuts.layout rfl (List.nil_append _).symm rfl nofun rfl nofun
  obtain ⟨ctx', position', tokens', hregion, hcuts', hwords⟩ := hlayout .start
  have hdepth' : ctx'.depth = 0 := (congrArg Lexer.Region.depth hregion).trans hdepth
  refine ⟨⟨tokens', position'⟩, Lexer.tokensFrom_ok_iff.mpr ⟨ctx', hdepth', ?_⟩, hwords⟩
  rwa [TokenStream.layout, String.toList_ofList]

/-- The feature list still touches its name when everything else has been set apart. -/
theorem tokenize_layout_of_features :
    let stream : TokenStream :=
      ⟨[⟨.name "M", ⟨0, 1, 1⟩, 1⟩, ⟨.openFeatures, ⟨1, 1, 2⟩, 3⟩, ⟨.name "x", ⟨3, 1, 4⟩, 4⟩,
        ⟨.mark .closeParen, ⟨4, 1, 5⟩, 5⟩, ⟨.compare .lt, ⟨5, 1, 6⟩, 6⟩,
        ⟨.version ⟨[.number 2], "2"⟩, ⟨6, 1, 7⟩, 7⟩], ⟨7, 1, 8⟩⟩
    tokenize "M#(x)<2" = .ok stream ∧ stream.layout "M#(x)<2" = "M#( x ) < 2" ∧
      ∃ stream', tokenize "M#( x ) < 2" = .ok stream' ∧
        stream'.tokens.map Token.lexeme = stream.tokens.map Token.lexeme := by
  intro stream
  have htokens : tokenize "M#(x)<2" = .ok stream := by decide +kernel
  have hlayout : stream.layout "M#(x)<2" = "M#( x ) < 2" := by decide +kernel
  obtain ⟨stream', htokens', hwords⟩ := tokenize_layout htokens
  exact ⟨htokens, hlayout, stream', hlayout ▸ htokens', hwords⟩

end Requirements
