import Mathlib.Tactic.Lemma
import Requirements.Proofs.Grammar.Readers
import Requirements.Proofs.Token.Spans

/-!
# Where the readers fail

A reader fails at the word that comes next, at the end of the text, or at a word that it has passed
over. All of these are places of the text if those that the feed tells of are. So it is enough to
know of each reader that it keeps to the places it is given, and readers that are put together from
such readers do so as well.
-/

namespace Requirements

namespace Parser

/-- Every place that the feed tells of is a place of the text. -/
structure Feed.StandsIn (cs : List Char) (feed : Feed) : Prop where
  start : ∀ t ∈ feed.tokens, t.start.IsPlaceIn cs
  finish : feed.finish.IsPlaceIn cs

namespace Feed.StandsIn

variable {cs : List Char} {feed : Feed}

/-- The place of a feed is a place of the text its tokens stand in. -/
lemma place (h : feed.StandsIn cs) : feed.place.IsPlaceIn cs := by
  unfold Feed.place
  cases htokens : feed.tokens with
  | nil => exact h.finish
  | cons t tokens =>
    have hmem : t ∈ feed.tokens := by rw [htokens]; exact List.mem_cons_self
    exact h.start t hmem

/-- The tokens left stand in the text. -/
lemma rest (h : feed.StandsIn cs) : feed.rest.StandsIn cs :=
  ⟨fun t ht => h.start t (List.mem_of_mem_tail ht), h.finish⟩

end Feed.StandsIn

/-- A sequence fails as its first part does, or as its second part does behind the first. -/
lemma run_bind_error_iff {α β : Type} {feed : Feed} {m : Reader α} {f : α → Reader β}
    {e : Located GrammarFault} :
    (m >>= f).run feed = .error e ↔
      m.run feed = .error e ∨ ∃ a mid, m.run feed = .ok (a, mid) ∧ (f a).run mid = .error e := by
  rw [StateT.run_bind]
  cases m.run feed with
  | error e' => simp [bind, Except.bind]
  | ok r =>
    obtain ⟨a, mid⟩ := r
    simp [bind, Except.bind]

/-- On the places of a text, the reader leaves places of the text, or fails at one. -/
structure Placed (cs : List Char) {α : Type} (r : Reader α) : Prop where
  ok : ∀ {feed a feed'}, feed.StandsIn cs → r.run feed = .ok (a, feed') → feed'.StandsIn cs
  error : ∀ {feed e}, feed.StandsIn cs → r.run feed = .error e → e.position.IsPlaceIn cs

namespace Placed

variable {α β : Type} {cs : List Char}

/-- A value given at once moves no place. -/
lemma pure (a : α) : Placed cs (pure a : Reader α) := by
  refine ⟨fun hfeed h => ?_, fun _ h => nomatch h⟩
  cases h
  exact hfeed

/-- A sequence stays on the places of the text if its parts do. -/
lemma bind {m : Reader α} {f : α → Reader β} (hm : Placed cs m) (hf : ∀ a, Placed cs (f a)) :
    Placed cs (m >>= f) := by
  refine ⟨fun hfeed h => ?_, fun hfeed h => ?_⟩
  · obtain ⟨a, mid, hrun, hrun'⟩ := run_bind_ok_iff.mp h
    exact (hf a).ok (hm.ok hfeed hrun) hrun'
  · rcases run_bind_error_iff.mp h with h | ⟨a, mid, hrun, h⟩
    · exact hm.error hfeed h
    · exact (hf a).error (hm.ok hfeed hrun) h

/-- A value computed from what was read. -/
theorem map {m : Reader α} (h : Placed cs m) (g : α → β) : Placed cs (do return g (← m)) :=
  h.bind fun a => .pure (g a)

/-- The next word decides how to go on. -/
theorem next {f : Option Lexeme → Reader β} (h : ∀ o, Placed cs (f o)) :
    Placed cs (next? >>= f) := by
  refine ⟨fun {feed _ _} hfeed hrun => ?_, fun {feed _} hfeed hrun => ?_⟩
  · exact (h feed.next?).ok hfeed hrun
  · exact (h feed.next?).error hfeed hrun

/-- The place of the next word is one of the text. -/
theorem place {f : Position → Reader β} (h : ∀ p, p.IsPlaceIn cs → Placed cs (f p)) :
    Placed cs (place >>= f) := by
  refine ⟨fun {feed _ _} hfeed hrun => ?_, fun {feed _} hfeed hrun => ?_⟩
  · exact (h feed.place hfeed.place).ok hfeed hrun
  · exact (h feed.place hfeed.place).error hfeed hrun

/-- Skipping a token leaves the places of the text. -/
lemma skip : Placed cs skip := by
  refine ⟨fun hfeed h => ?_, fun _ h => nomatch h⟩
  cases h
  exact hfeed.rest

/-- A failure at a place of the text is one. -/
lemma failAt {p : Position} (hp : p.IsPlaceIn cs) (fault : GrammarFault) :
    Placed cs (failAt p fault : Reader α) := by
  refine ⟨fun _ h => absurd h run_failAt_ne_ok, fun _ h => ?_⟩
  cases h
  exact hp

/-- A failure where the reader stands is at a place of the text. -/
lemma fail (fault : GrammarFault) : Placed cs (fail fault : Reader α) :=
  .place fun _ hp => .failAt hp fault

/-- A loop stays on the places of the text if its rounds do. -/
lemma forTokens {loop : Nat → Reader α} (h : ∀ n, Placed cs (loop n)) :
    Placed cs (forTokens loop) := by
  refine ⟨fun {feed _ _} hfeed hrun => ?_, fun {feed _} hfeed hrun => ?_⟩
  · exact (h (feed.tokens.length + 1)).ok hfeed hrun
  · exact (h (feed.tokens.length + 1)).error hfeed hrun

end Placed

variable {cs : List Char}

/-! ### Words -/

/-- An unexpected word is reported where it stands. -/
lemma expect_placed (l : Lexeme) (what : Expectation) : Placed cs (expect l what) := by
  refine .next fun found => ?_
  split
  · exact .skip
  · exact .fail _

/-- A missing name is reported where it should stand. -/
lemma expectName_placed (what : Expectation) : Placed cs (expectName what) := by
  refine .next fun found => ?_
  split
  · exact .bind .skip fun _ => .pure _
  · exact .fail _

/-- A missing quoted text is reported where it should stand. -/
lemma expectQuoted_placed : Placed cs expectQuoted := by
  refine .next fun found => ?_
  split
  · exact .bind .skip fun _ => .pure _
  · exact .fail _

/-! ### Primary expressions -/

/-- A fault among the further arguments is reported at its place. -/
lemma argumentsFrom_placed (n : Nat) : Placed cs (argumentsFrom n) := by
  induction n with
  | zero => exact .pure []
  | succ n ih =>
    refine .next fun o => ?_
    split
    · exact .bind .skip fun _ => .bind expectQuoted_placed fun arg => ih.map (arg :: ·)
    · exact .pure []

/-- A fault among the arguments of a probe is reported at its place. -/
lemma arguments_placed (kind : Probe) : Placed cs (arguments kind) :=
  (expect_placed _ _).bind fun _ => expectQuoted_placed.bind fun first =>
    (Placed.forTokens argumentsFrom_placed).bind fun others =>
      (expect_placed _ _).map fun _ => first :: others

/-- A fault among the further features is reported at its place. -/
lemma featuresFrom_placed (n : Nat) : Placed cs (featuresFrom n) := by
  induction n with
  | zero => exact .pure []
  | succ n ih =>
    refine .next fun o => ?_
    split
    · exact .bind .skip fun _ => .pure []
    · exact .bind .skip fun _ => (expectName_placed _).bind fun feature => ih.map (feature :: ·)
    · exact .fail _

/-- A fault among features is reported at its place. -/
lemma features_placed : Placed cs features :=
  (expectName_placed _).bind fun first =>
    (Placed.forTokens featuresFrom_placed).map fun others => first :: others

/-- An unknown function is reported at its name, which has been passed over. -/
theorem named_placed {start : Position} (hstart : start.IsPlaceIn cs) (name : String) :
    Placed cs (named start name) := by
  unfold named
  split
  · exact (arguments_placed _).map _
  · refine .next fun o => ?_
    split
    · exact .failAt hstart _
    · exact .bind .skip fun _ => features_placed.map _
    · exact .pure _

/-- A fault in braces is reported at its place. -/
lemma braced_placed : Placed cs Parser.braced := by
  refine (expectName_placed _).bind fun name => (expect_placed _ _).bind fun _ => ?_
  split
  · exact .pure _
  · exact .pure _

/-- A fault in a primary expression is reported at its place, if those in parentheses are. -/
lemma primary_placed {nested : Option (Reader Expr)}
    (h : ∀ inner, nested = some inner → Placed cs inner) : Placed cs (primary nested) := by
  refine .next fun o => ?_
  split
  · exact .place fun _ hp => .bind .skip fun _ => named_placed hp _
  · exact .bind .skip fun _ => braced_placed
  · exact .bind .skip fun _ => .pure _
  · exact .bind .skip fun _ => .pure _
  · exact .bind .skip fun _ => .pure _
  · exact .bind .skip fun _ => .pure _
  · split
    · exact .fail _
    · exact .bind .skip fun _ => (h _ rfl).bind fun e => (expect_placed _ _).map fun _ => e
  · exact .fail _

/-! ### Operators -/

section Operators

variable {operand : Reader Expr}

/-- A fault in a comparison is reported at its place, if those in its sides are. -/
lemma compared_placed (admits : CompareOp → Bool) (h : Placed cs operand) :
    Placed cs (compared admits operand) := by
  refine h.bind fun lhs => .next fun o => ?_
  split
  · split
    · exact .bind .skip fun _ => h.map _
    · exact .pure _
  · exact .pure _

/-- A range with its bounds out of order is reported before it is passed over. -/
theorem rangesFrom_placed (n : Nat) : Placed cs (rangesFrom n) := by
  induction n with
  | zero => exact .pure []
  | succ n ih =>
    refine .next fun o => ?_
    split
    · split
      · exact .fail _
      · exact .bind .skip fun _ => ih.map _
    · exact .pure []

/-- A fault in a version set is reported at its place. -/
lemma versionSet_placed : Placed cs versionSet := by
  refine .place fun start hstart => (expect_placed _ _).bind fun _ =>
    (Placed.forTokens rangesFrom_placed).bind fun ranges => (expect_placed _ _).bind fun _ => ?_
  split
  · exact .failAt hstart _
  · exact .pure _

/-- A fault in a set test is reported at its place, if those in its operand are. -/
lemma member_placed (h : Placed cs operand) : Placed cs (member operand) := by
  refine h.bind fun e => .next fun o => ?_
  split
  · exact .bind .skip fun _ => versionSet_placed.map _
  · exact .pure _

/-- A tag that has been used is reported where it is used again. -/
theorem freshTag_placed : Placed cs freshTag := by
  refine .place fun start hstart => (expectName_placed _).bind fun tag => ?_
  refine ⟨fun {feed a feed'} hfeed h => ?_, fun {feed e} hfeed h => ?_⟩
  · rw [run_get_bind] at h
    split at h
    · cases h
    · cases h
      exact ⟨hfeed.start, hfeed.finish⟩
  · rw [run_get_bind] at h
    split at h
    · exact (Placed.failAt hstart _ : Placed cs (failAt start _ : Reader String)).error hfeed h
    · cases h

/-- A fault in an alternative is reported at its place, if those in its operand are. -/
lemma alternative_placed (inChoice : Bool) (h : Placed cs operand) :
    Placed cs (alternative inChoice operand) := by
  refine h.bind fun e => .next fun o => ?_
  split
  · split
    · exact .bind .skip fun _ => (expect_placed _ _).bind fun _ => freshTag_placed.map _
    · exact .fail _
  · exact .pure _

/-- A fault behind a connective is reported at its place, if those in its operands are. -/
lemma joined_placed (h : Placed cs operand) (n : Nat) (lhs : Expr) :
    Placed cs (joined operand n lhs) := by
  induction n generalizing lhs with
  | zero => exact .pure lhs
  | succ n ih =>
    refine .next fun o => ?_
    split
    · exact .bind .skip fun _ => h.bind fun rhs => ih _
    · exact .pure lhs

/-- A fault in a chain of connectives is reported at its place, if those in its operands are. -/
lemma chain_placed (h : Placed cs operand) : Placed cs (chain operand) :=
  h.bind fun first => .forTokens fun n => joined_placed h n first

end Operators

/-- A fault in an expression is reported at its place, if those one level deeper are. -/
lemma exprWith_placed (inChoice : Bool) {nested : Option (Reader Expr)}
    (h : ∀ inner, nested = some inner → Placed cs inner) : Placed cs (exprWith inChoice nested) :=
  chain_placed <| alternative_placed inChoice <| member_placed <|
    compared_placed _ <| compared_placed _ <| primary_placed h

/-- A fault in an expression is reported at its place, by induction on the levels left. -/
lemma expr_placed (inChoice : Bool) (levels : Nat) : Placed cs (expr inChoice levels) := by
  induction levels with
  | zero => exact exprWith_placed inChoice nofun
  | succ levels ih =>
    refine exprWith_placed inChoice ?_
    rintro inner ⟨⟩
    exact ih

/-! ### Definitions and scripts -/

/-- A fault in a definition is reported at its place. -/
lemma definition_placed (kind : DefinitionKind) (line : Nat) :
    Placed cs (definition kind line) :=
  (expectName_placed _).bind fun _ => (expect_placed _ _).bind fun _ =>
    (expr_placed _ _).bind fun _ => (expect_placed _ _).map _

/-- A fault among the definitions is reported at its place. -/
lemma definitionsFrom_placed (n : Nat) : Placed cs (definitionsFrom n) := by
  induction n with
  | zero => exact .pure []
  | succ n ih =>
    refine .next fun o => ?_
    split
    · exact .place fun _ _ => .bind .skip fun _ =>
        (definition_placed _ _).bind fun d => ih.map (d :: ·)
    · exact .pure []

/-- A fault in the master expression is reported at its place. -/
lemma masterExpr_placed : Placed cs masterExpr := by
  refine .next fun o => ?_
  split
  · exact .pure none
  refine (expr_placed _ _).bind fun e => .next fun o => ?_
  split
  on_goal 1 => refine .bind .skip fun _ => ?_
  -- With a semicolon or without one, whatever stands behind the master expression is refused.
  all_goals
    refine .next fun o => ?_
    split
    · exact .pure _
    · split_ifs
      all_goals exact .fail _

/-- A fault in a program is reported at its place. -/
lemma script_placed : Placed cs script :=
  (Placed.forTokens definitionsFrom_placed).bind fun definitions =>
    masterExpr_placed.map fun master => (⟨definitions, master⟩ : Script)

end Parser

end Requirements
