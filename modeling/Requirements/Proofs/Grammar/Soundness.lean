import Mathlib.Tactic.Lemma
import Requirements.Proofs.Grammar.Readers

/-!
# What the readers accept

Every reader that succeeds has consumed words that derive its value.
-/

namespace Requirements

namespace Parser

open Requirements.Expr (Strength)
open Grammar

variable {feed feed' : Feed}

/-! ### Words -/

/-- The word that was expected has been consumed. -/
lemma expect_sound {l : Lexeme} {what : Expectation} {u : Unit}
    (h : (expect l what).run feed = .ok (u, feed')) : Consumes feed feed' [l] [] := by
  rw [expect, run_next?_bind] at h
  split at h
  · rename_i hl
    cases h
    exact .rest hl
  · exact absurd h run_fail_ne_ok

/-- The name that was read has been consumed. -/
lemma expectName_sound {what : Expectation} {name : String}
    (h : (expectName what).run feed = .ok (name, feed')) :
    Consumes feed feed' [.name name] [] := by
  rw [expectName, run_next?_bind] at h
  split at h
  · rename_i hl
    rw [run_skip_bind] at h
    cases h
    exact .rest hl
  · exact absurd h run_fail_ne_ok

/-- The quoted text that was read has been consumed. -/
lemma expectQuoted_sound {value : String} (h : expectQuoted.run feed = .ok (value, feed')) :
    Consumes feed feed' [.quoted value] [] := by
  rw [expectQuoted, run_next?_bind] at h
  split at h
  · rename_i hl
    rw [run_skip_bind] at h
    cases h
    exact .rest hl
  · exact absurd h run_fail_ne_ok

/-! ### Primary expressions -/

/-- The arguments that were read have been consumed with the commas before them. -/
lemma argumentsFrom_sound {n : Nat} {args : List String}
    (h : (argumentsFrom n).run feed = .ok (args, feed')) :
    Consumes feed feed' (args.flatMap fun a => [.mark .comma, .quoted a]) [] := by
  induction n generalizing feed args with
  | zero =>
    cases h
    exact .refl _
  | succ n ih =>
    rw [argumentsFrom, run_next?_bind] at h
    split at h
    · rename_i hl
      rw [run_skip_bind] at h
      obtain ⟨arg, mid, harg, h⟩ := run_bind_ok_iff.mp h
      obtain ⟨rest, last, hrest, h⟩ := run_bind_ok_iff.mp h
      cases h
      exact ((Consumes.rest hl).trans (expectQuoted_sound harg)).trans (ih hrest)
    · cases h
      exact .refl _

/-- A probe has at least one argument, and all have been consumed with their parentheses. -/
lemma arguments_sound {kind : Probe} {args : List String}
    (h : (arguments kind).run feed = .ok (args, feed')) :
    ∃ first others, args = first :: others ∧ Consumes feed feed'
      (.mark .openParen :: (argumentWords first others ++ [.mark .closeParen])) [] := by
  rw [arguments] at h
  obtain ⟨_, f₁, hopen, h⟩ := run_bind_ok_iff.mp h
  obtain ⟨first, f₂, hfirst, h⟩ := run_bind_ok_iff.mp h
  obtain ⟨others, f₃, hothers, h⟩ := run_bind_ok_iff.mp h
  obtain ⟨_, f₄, hclose, h⟩ := run_bind_ok_iff.mp h
  cases h
  refine ⟨first, others, rfl, ?_⟩
  rw [run_forTokens] at hothers
  exact (((expect_sound hopen).trans (expectQuoted_sound hfirst)).trans
    (argumentsFrom_sound hothers)).trans (expect_sound hclose)

/-- The features are followed by a closing parenthesis, because the fuel is more than there are
tokens to read. -/
theorem featuresFrom_sound {n : Nat} {features : List String} (hn : feed.tokens.length < n)
    (h : (featuresFrom n).run feed = .ok (features, feed')) :
    Consumes feed feed'
      ((features.flatMap fun f => [.logical .and, .name f]) ++ [.mark .closeParen]) [] := by
  induction n generalizing feed features with
  | zero => exact absurd hn (Nat.not_lt_zero _)
  | succ n ih =>
    rw [featuresFrom, run_next?_bind] at h
    split at h
    · rename_i hl
      rw [run_skip_bind] at h
      cases h
      exact .rest hl
    · rename_i hl
      rw [run_skip_bind] at h
      obtain ⟨feature, mid, hfeature, h⟩ := run_bind_ok_iff.mp h
      obtain ⟨rest, last, hrest, h⟩ := run_bind_ok_iff.mp h
      cases h
      have htwo := (Consumes.rest hl).trans (expectName_sound hfeature)
      have hmid : mid.tokens.length < n := by
        obtain ⟨taken, htokens, hwords⟩ := htwo.tokens
        have htaken := congrArg List.length hwords
        rw [htokens, List.length_append] at hn
        simp only [List.length_map, List.length_append, List.length_cons, List.length_nil] at htaken
        omega
      exact htwo.trans (ih hmid hrest)
    · exact absurd h run_fail_ne_ok

/-- A feature list has at least one feature, and all have been consumed with the closing
parenthesis. -/
lemma features_sound {list : List String} (h : features.run feed = .ok (list, feed')) :
    ∃ first others, list = first :: others ∧
      Consumes feed feed' (featureWords first others ++ [.mark .closeParen]) [] := by
  rw [features] at h
  obtain ⟨first, f₁, hfirst, h⟩ := run_bind_ok_iff.mp h
  obtain ⟨others, f₂, hothers, h⟩ := run_bind_ok_iff.mp h
  cases h
  rw [run_forTokens] at hothers
  exact ⟨first, others, rfl,
    (expectName_sound hfirst).trans (featuresFrom_sound (Nat.lt_succ_self _) hothers)⟩

/-- The reader's value derived from the words it consumed. -/
def Accepts (inChoice : Bool) (levels : Nat) (strength : Strength) (r : Reader Expr) : Prop :=
  ∀ feed e feed', r.run feed = .ok (e, feed') →
    ∃ words, Consumes feed feed' words e.tags ∧ Derives inChoice levels strength words e

variable {inChoice : Bool} {levels : Nat} {e : Expr}

/-- What is read behind a name derives from the name and the words consumed. -/
lemma named_sound {start : Position} {name : String}
    (h : (named start name).run feed = .ok (e, feed')) :
    ∃ words, Consumes feed feed' words e.tags ∧
      Derives inChoice levels .primary (.name name :: words) e := by
  unfold named at h
  split at h
  · rename_i kind hkind
    obtain ⟨args, f₁, hargs, h⟩ := run_bind_ok_iff.mp h
    cases h
    obtain ⟨first, others, rfl, hconsumes⟩ := arguments_sound hargs
    exact ⟨_, hconsumes, .probe first others hkind⟩
  · rename_i hkind
    rw [run_next?_bind] at h
    split at h
    · exact absurd h run_failAt_ne_ok
    · rename_i hl
      rw [run_skip_bind] at h
      obtain ⟨list, f₁, hlist, h⟩ := run_bind_ok_iff.mp h
      cases h
      obtain ⟨first, others, rfl, hconsumes⟩ := features_sound hlist
      exact ⟨_, (Consumes.rest hl).trans hconsumes, .features first others hkind⟩
    · cases h
      exact ⟨[], .refl feed, .name hkind⟩

/-- What is read behind an opening brace is a name and the closing brace. -/
lemma braced_sound (h : Parser.braced.run feed = .ok (e, feed')) :
    ∃ name, e = Grammar.braced name ∧
      Consumes feed feed' [.name name, .mark .closeBrace] e.tags := by
  rw [Parser.braced] at h
  obtain ⟨name, f₁, hname, h⟩ := run_bind_ok_iff.mp h
  obtain ⟨_, f₂, hclose, h⟩ := run_bind_ok_iff.mp h
  have hconsumes := (expectName_sound hname).trans (expect_sound hclose)
  refine ⟨name, ?_⟩
  cases hfact : Platform.ofName? name with
  | some fact =>
    rw [hfact] at h
    cases h
    exact ⟨by rw [Grammar.braced, hfact], hconsumes⟩
  | none =>
    rw [hfact] at h
    cases h
    exact ⟨by rw [Grammar.braced, hfact], hconsumes⟩

/-- The reader `inner` reads what stands between parentheses, if parentheses may be opened. -/
def AcceptsNested (inChoice : Bool) (levels : Nat) (nested : Option (Reader Expr)) : Prop :=
  ∀ inner, nested = some inner →
    ∃ deeper, levels = deeper + 1 ∧ Accepts inChoice deeper .logical inner

/-- Primary expressions derive from their words, if those in parentheses do. -/
lemma primary_sound {nested : Option (Reader Expr)}
    (hnested : AcceptsNested inChoice levels nested) :
    Accepts inChoice levels .primary (primary nested) := by
  intro feed e feed' h
  unfold primary at h
  rw [run_next?_bind] at h
  split at h
  · rename_i name hl
    rw [run_place_bind, run_skip_bind] at h
    obtain ⟨words, hconsumes, hderives⟩ := named_sound h
    exact ⟨_, (Consumes.rest hl).trans hconsumes, hderives⟩
  · rename_i hl
    rw [run_skip_bind] at h
    obtain ⟨name, rfl, hconsumes⟩ := braced_sound h
    exact ⟨_, (Consumes.rest hl).trans hconsumes, .braces name⟩
  · rename_i value hl
    rw [run_skip_bind] at h
    cases h
    exact ⟨_, .rest hl, .text value⟩
  · rename_i value hl
    rw [run_skip_bind] at h
    cases h
    exact ⟨_, .rest hl, .version value⟩
  · rename_i hl
    rw [run_skip_bind] at h
    cases h
    exact ⟨_, .rest hl, .yes⟩
  · rename_i hl
    rw [run_skip_bind] at h
    cases h
    exact ⟨_, .rest hl, .no⟩
  · rename_i hl
    split at h
    · exact absurd h run_fail_ne_ok
    · rename_i inner
      obtain ⟨deeper, rfl, hinner⟩ := hnested inner rfl
      rw [run_skip_bind] at h
      obtain ⟨e, f₁, hrun, h⟩ := run_bind_ok_iff.mp h
      obtain ⟨_, f₂, hclose, h⟩ := run_bind_ok_iff.mp h
      cases h
      obtain ⟨words, hconsumes, hderives⟩ := hinner _ _ _ hrun
      have hall := ((Consumes.rest hl).trans hconsumes).trans (expect_sound hclose)
      exact ⟨_, by simpa using hall, .parens hderives⟩
  · exact absurd h run_fail_ne_ok

/-! ### Comparisons, set tests and tags -/

/-- Comparisons derive from their words, if their sides do at the next stronger place. -/
lemma compared_sound {admits : CompareOp → Bool} {operand : Reader Expr}
    {strength stronger : Strength} (hrank : strength.rank + 1 = stronger.rank)
    (hadmits : ∀ op, admits op = true →
      Strength.ofCompare op = strength ∧ operandStrength op = stronger)
    (hoperand : Accepts inChoice levels stronger operand) :
    Accepts inChoice levels strength (compared admits operand) := by
  intro feed e feed' h
  rw [compared] at h
  obtain ⟨lhs, f₁, hlhs, h⟩ := run_bind_ok_iff.mp h
  obtain ⟨left, hleft, hderives⟩ := hoperand _ _ _ hlhs
  rw [run_next?_bind] at h
  split at h
  · rename_i op hl
    split at h
    · rename_i hop
      rw [run_skip_bind] at h
      obtain ⟨rhs, f₂, hrhs, h⟩ := run_bind_ok_iff.mp h
      cases h
      obtain ⟨right, hright, hderives'⟩ := hoperand _ _ _ hrhs
      obtain ⟨rfl, rfl⟩ := hadmits op hop
      have hall := (hleft.trans (Consumes.rest hl)).trans hright
      exact ⟨_, by simpa using hall, .compare op hderives hderives'⟩
    · cases h
      exact ⟨left, hleft, .lift hrank hderives⟩
  · cases h
    exact ⟨left, hleft, .lift hrank hderives⟩

/-- The further ranges of a version set have been consumed, none of them empty. -/
lemma rangesFrom_sound {n : Nat} {ranges : List Version.Range}
    (h : (rangesFrom n).run feed = .ok (ranges, feed')) :
    ∃ spelled : List (String × Version.Range), ranges = spelled.map Prod.snd ∧
      (∀ r ∈ spelled, r.2.isEmpty = false) ∧ Consumes feed feed' (rangeWords spelled) [] := by
  induction n generalizing feed ranges with
  | zero =>
    cases h
    exact ⟨[], rfl, by simp, .refl _⟩
  | succ n ih =>
    rw [rangesFrom, run_next?_bind] at h
    split at h
    · rename_i text r hl
      split at h
      · exact absurd h run_fail_ne_ok
      · rename_i hr
        rw [run_skip_bind] at h
        obtain ⟨rest, f₁, hrest, h⟩ := run_bind_ok_iff.mp h
        cases h
        obtain ⟨spelled, rfl, hfull, hconsumes⟩ := ih hrest
        refine ⟨(text, r) :: spelled, rfl, ?_, (Consumes.rest hl).trans hconsumes⟩
        exact List.forall_mem_cons.mpr ⟨by simpa using hr, hfull⟩
    · cases h
      exact ⟨[], rfl, by simp, .refl _⟩

/-- A version set has at least one range, and all have been consumed with their delimiters. -/
lemma versionSet_sound {set : Version.RangeSet} (h : versionSet.run feed = .ok (set, feed')) :
    ∃ spelled : List (String × Version.Range), set = ⟨spelled.map Prod.snd⟩ ∧ spelled ≠ [] ∧
      (∀ r ∈ spelled, r.2.isEmpty = false) ∧
      Consumes feed feed' (.openSet :: (rangeWords spelled ++ [.closeSet])) [] := by
  rw [versionSet, run_place_bind] at h
  obtain ⟨_, f₁, hopen, h⟩ := run_bind_ok_iff.mp h
  obtain ⟨ranges, f₂, hranges, h⟩ := run_bind_ok_iff.mp h
  obtain ⟨_, f₃, hclose, h⟩ := run_bind_ok_iff.mp h
  obtain ⟨spelled, rfl, hfull, hconsumes⟩ := rangesFrom_sound hranges
  split at h
  · exact absurd h run_failAt_ne_ok
  · rename_i hne
    cases h
    refine ⟨spelled, rfl, ?_, hfull, ?_⟩
    · rintro rfl
      exact hne rfl
    · exact ((expect_sound hopen).trans hconsumes).trans (expect_sound hclose)

/-- Set tests derive from their words, if their operands do. -/
lemma member_sound {operand : Reader Expr}
    (hoperand : Accepts inChoice levels .equality operand) :
    Accepts inChoice levels .within (member operand) := by
  intro feed e feed' h
  rw [member] at h
  obtain ⟨e, f₁, hrun, h⟩ := run_bind_ok_iff.mp h
  obtain ⟨words, hwords, hderives⟩ := hoperand _ _ _ hrun
  rw [run_next?_bind] at h
  split at h
  · rename_i hl
    rw [run_skip_bind] at h
    obtain ⟨set, f₂, hset, h⟩ := run_bind_ok_iff.mp h
    cases h
    obtain ⟨spelled, rfl, hne, hfull, hconsumes⟩ := versionSet_sound hset
    have hall := (hwords.trans (Consumes.rest hl)).trans hconsumes
    exact ⟨_, by simpa using hall, .within hderives hne hfull⟩
  · cases h
    exact ⟨words, hwords, .lift rfl hderives⟩

/-- A tag that is accepted has not been used before. -/
theorem freshTag_sound {tag : String} (h : freshTag.run feed = .ok (tag, feed')) :
    Consumes feed feed' [.name tag] [tag] := by
  rw [freshTag, run_place_bind] at h
  obtain ⟨name, f₁, hname, h⟩ := run_bind_ok_iff.mp h
  have hconsumes := expectName_sound hname
  rw [run_get_bind] at h
  split at h
  · exact absurd h run_failAt_ne_ok
  · rename_i hlookup
    cases h
    have hfresh : tag ∉ f₁.used := by
      rw [List.lookup_eq_none_iff] at hlookup
      intro hmem
      obtain ⟨r, hr, rfl⟩ := List.mem_map.mp hmem
      exact absurd (hlookup r hr) (by simp)
    refine ⟨hconsumes.tokens, hconsumes.finish, ?_, fun hn => ?_⟩
    · exact hconsumes.used.cons tag
    · exact List.nodup_cons.mpr ⟨hfresh, hconsumes.nodup hn⟩

/-- Alternatives derive from their words, if their operands do, and are tagged in choices only. -/
lemma alternative_sound {operand : Reader Expr}
    (hoperand : Accepts inChoice levels .within operand) :
    Accepts inChoice levels .tagged (alternative inChoice operand) := by
  intro feed e feed' h
  rw [alternative] at h
  obtain ⟨e, f₁, hrun, h⟩ := run_bind_ok_iff.mp h
  obtain ⟨words, hwords, hderives⟩ := hoperand _ _ _ hrun
  rw [run_next?_bind] at h
  split at h
  · rename_i hl
    split at h
    · rename_i hchoice
      rw [run_skip_bind] at h
      obtain ⟨_, f₂, hcolon, h⟩ := run_bind_ok_iff.mp h
      obtain ⟨tag, f₃, htag, h⟩ := run_bind_ok_iff.mp h
      cases h
      have hall := ((hwords.trans (Consumes.rest hl)).trans (expect_sound hcolon)).trans
        (freshTag_sound htag)
      refine ⟨_, ?_, .tagged tag hchoice hderives⟩
      rw [Expr.tags_tagged]
      exact (by simpa using hall : Consumes _ _ _ (e.tags ++ [tag])).perm List.perm_append_comm
    · exact absurd h run_fail_ne_ok
  · cases h
    exact ⟨words, hwords, .lift rfl hderives⟩

/-! ### Connectives -/

/-- A loop that joins operands to `lhs` continues a derivation of `lhs`. -/
theorem joined_sound {operand : Reader Expr} (hoperand : Accepts inChoice levels .tagged operand)
    {n : Nat} {lhs : Expr} (h : (joined operand n lhs).run feed = .ok (e, feed'))
    {left : List Lexeme} (hleft : Derives inChoice levels .logical left lhs) :
    ∃ words tags, Consumes feed feed' words tags ∧ e.tags = lhs.tags ++ tags ∧
      Derives inChoice levels .logical (left ++ words) e := by
  induction n generalizing feed lhs left with
  | zero =>
    cases h
    exact ⟨[], [], .refl _, by simp, by simpa using hleft⟩
  | succ n ih =>
    rw [joined, run_next?_bind] at h
    split at h
    · rename_i op hl
      rw [run_skip_bind] at h
      obtain ⟨rhs, f₁, hrhs, h⟩ := run_bind_ok_iff.mp h
      obtain ⟨right, hright, hderives⟩ := hoperand _ _ _ hrhs
      obtain ⟨words, tags, hwords, htags, hall⟩ := ih h (.logical op hleft hderives)
      have hconsumes := ((Consumes.rest hl).trans hright).trans hwords
      refine ⟨.logical op :: (right ++ words), rhs.tags ++ tags, by simpa using hconsumes, ?_, ?_⟩
      · rw [htags, Expr.tags_logical, List.append_assoc]
      · simpa using hall
    · cases h
      exact ⟨[], [], .refl _, by simp, by simpa using hleft⟩

/-- Chains of connectives derive from their words, if their operands do. -/
lemma chain_sound {operand : Reader Expr} (hoperand : Accepts inChoice levels .tagged operand) :
    Accepts inChoice levels .logical (chain operand) := by
  intro feed e feed' h
  rw [chain] at h
  obtain ⟨first, f₁, hfirst, h⟩ := run_bind_ok_iff.mp h
  obtain ⟨left, hleft, hderives⟩ := hoperand _ _ _ hfirst
  rw [run_forTokens] at h
  obtain ⟨words, tags, hwords, htags, hall⟩ := joined_sound hoperand h (.lift rfl hderives)
  exact ⟨_, htags ▸ hleft.trans hwords, hall⟩

/-! ### Expressions -/

/-- Expressions derive from their words, if those one level deeper do. -/
lemma exprWith_sound {nested : Option (Reader Expr)}
    (hnested : AcceptsNested inChoice levels nested) :
    Accepts inChoice levels .logical (exprWith inChoice nested) := by
  have hordering : Accepts inChoice levels .ordering
      (compared (fun op => !op.isEquality) (primary nested)) :=
    compared_sound rfl (fun op hop => by
      have hop : op.isEquality = false := by simpa using hop
      simp [Strength.ofCompare, operandStrength, hop]) (primary_sound hnested)
  have hequality : Accepts inChoice levels .equality
      (compared CompareOp.isEquality (compared (fun op => !op.isEquality) (primary nested))) :=
    compared_sound rfl (fun op hop => by
      simp [Strength.ofCompare, operandStrength, hop]) hordering
  exact chain_sound (alternative_sound (member_sound hequality))

/-- An expression that is read is derived, within the depth of parentheses allowed. -/
theorem expr_sound (levels : Nat) : Accepts inChoice levels .logical (expr inChoice levels) := by
  induction levels with
  | zero =>
    refine exprWith_sound fun inner hinner => ?_
    cases hinner
  | succ levels ih =>
    refine exprWith_sound fun inner hinner => ?_
    cases hinner
    exact ⟨levels, rfl, ih⟩

/-! ### Programs -/

/-- A definition derives from the words between its name and its semicolon. -/
lemma definition_sound {kind : DefinitionKind} {line : Nat} {d : Definition}
    (h : (definition kind line).run feed = .ok (d, feed')) :
    ∃ name words body, d = ⟨kind, name, body, line⟩ ∧
      Derives (kind == .choice) maxNesting .logical words body ∧
      Consumes feed feed' (.name name :: .mark .assign :: (words ++ [.mark .semicolon]))
        body.tags := by
  rw [definition] at h
  obtain ⟨name, f₁, hname, h⟩ := run_bind_ok_iff.mp h
  obtain ⟨_, f₂, hassign, h⟩ := run_bind_ok_iff.mp h
  obtain ⟨body, f₃, hbody, h⟩ := run_bind_ok_iff.mp h
  obtain ⟨_, f₄, hclose, h⟩ := run_bind_ok_iff.mp h
  cases h
  obtain ⟨words, hwords, hderives⟩ := expr_sound maxNesting _ _ _ hbody
  have hall := (((expectName_sound hname).trans (expect_sound hassign)).trans hwords).trans
    (expect_sound hclose)
  exact ⟨name, words, body, rfl, hderives, by simpa using hall⟩

/-- The definitions that were read derive from the tokens consumed. -/
lemma definitionsFrom_sound {n : Nat} {definitions : List Definition}
    (h : (definitionsFrom n).run feed = .ok (definitions, feed')) :
    ∃ taken, feed.tokens = taken ++ feed'.tokens ∧ DerivesDefinitions taken definitions ∧
      Consumes feed feed' (taken.map Token.lexeme) (definitions.flatMap fun d => d.body.tags) := by
  induction n generalizing feed definitions with
  | zero =>
    cases h
    exact ⟨[], rfl, .nil, .refl _⟩
  | succ n ih =>
    rw [definitionsFrom, run_next?_bind] at h
    split at h
    · rename_i kind hkind
      rw [run_place_bind, run_skip_bind] at h
      obtain ⟨d, f₁, hd, h⟩ := run_bind_ok_iff.mp h
      obtain ⟨rest, f₂, hrest, h⟩ := run_bind_ok_iff.mp h
      cases h
      obtain ⟨name, words, body, rfl, hderives, hconsumes⟩ := definition_sound hd
      obtain ⟨taken', htokens', hdefinitions, hconsumes'⟩ := ih hrest
      obtain ⟨taken, htokens, hwords⟩ := hconsumes.tokens
      obtain ⟨tokens, finish, tags⟩ := feed
      cases tokens with
      | nil => cases hkind
      | cons keyword tokens =>
        have hnext : (Feed.mk (keyword :: tokens) finish tags).next? = some keyword.lexeme := rfl
        refine ⟨keyword :: (taken ++ taken'), ?_, .cons hkind hwords hderives hdefinitions, ?_⟩
        · have hrest : tokens = taken ++ f₁.tokens := htokens
          rw [hrest, htokens', List.cons_append, List.append_assoc]
        · have hall := ((Consumes.rest hnext).trans hconsumes).trans hconsumes'
          simpa [hwords] using hall
    · cases h
      exact ⟨[], rfl, .nil, .refl _⟩

/-- A feed without a next token is empty. -/
lemma tokens_eq_nil_of_next? (h : feed.next? = none) : feed.tokens = [] := by
  simpa [Feed.next?] using h

/-- The master expression derives from the words left, and nothing stays behind it. -/
lemma masterExpr_sound {master : Option Expr} (h : masterExpr.run feed = .ok (master, feed')) :
    ∃ words, DerivesMaster words master ∧ feed'.tokens = [] ∧ Consumes feed feed' words [] := by
  rw [masterExpr, run_next?_bind] at h
  split at h
  · rename_i hnone
    cases h
    exact ⟨[], .none, tokens_eq_nil_of_next? hnone, .refl _⟩
  · obtain ⟨e, f₁, he, h⟩ := run_bind_ok_iff.mp h
    obtain ⟨words, hconsumes, hderives⟩ := expr_sound maxNesting _ _ _ he
    rw [hderives.tags_eq_nil rfl] at hconsumes
    rw [run_next?_bind] at h
    split at h
    · rename_i hl
      rw [run_skip_bind, run_next?_bind] at h
      split at h
      · rename_i hnone
        cases h
        exact ⟨_, .closed hderives, tokens_eq_nil_of_next? hnone,
          hconsumes.trans (Consumes.rest hl)⟩
      · split at h
        · exact absurd h run_fail_ne_ok
        · split at h
          · exact absurd h run_fail_ne_ok
          · exact absurd h run_fail_ne_ok
    · rw [run_next?_bind] at h
      split at h
      · rename_i hnone
        cases h
        exact ⟨_, .plain hderives, tokens_eq_nil_of_next? hnone, hconsumes⟩
      · split at h
        · exact absurd h run_fail_ne_ok
        · split at h
          · exact absurd h run_fail_ne_ok
          · exact absurd h run_fail_ne_ok

/-- A script that is read is derived from all of its tokens. -/
theorem toScript_sound {stream : TokenStream} {s : Script} (h : stream.toScript = .ok s) :
    DerivesScript stream.tokens s := by
  obtain ⟨last, hrun⟩ : ∃ last, script.run ⟨stream.tokens, stream.finish, []⟩ = .ok (s, last) := by
    unfold TokenStream.toScript StateT.run' at h
    cases hscript : script.run ⟨stream.tokens, stream.finish, []⟩ with
    | error e =>
      have hrun : script ⟨stream.tokens, stream.finish, []⟩ = .error e := hscript
      rw [hrun] at h
      cases h
    | ok r =>
      have hrun : script ⟨stream.tokens, stream.finish, []⟩ = .ok r := hscript
      rw [hrun] at h
      cases h
      exact ⟨r.2, rfl⟩
  rw [script] at hrun
  obtain ⟨definitions, mid, hdefinitions, hrun⟩ := run_bind_ok_iff.mp hrun
  obtain ⟨master, last', hmaster, hrun⟩ := run_bind_ok_iff.mp hrun
  cases hrun
  rw [run_forTokens] at hdefinitions
  obtain ⟨front, hfront, hderives, hconsumes⟩ := definitionsFrom_sound hdefinitions
  obtain ⟨words, hwords, hend, hconsumes'⟩ := masterExpr_sound hmaster
  obtain ⟨back, hback, rfl⟩ := hconsumes'.tokens
  rw [hend, List.append_nil] at hback
  have hnodup := hconsumes.nodup List.nodup_nil
  rw [hconsumes.used.nodup_iff, Feed.used, List.map_nil, List.append_nil] at hnodup
  exact ⟨front, back, hback ▸ hfront, hderives, hwords, hnodup⟩

end Parser

/-- A text that is read as a script is cut into tokens that derive the script. -/
theorem Script.exists_derives_of_parse {source : String} {s : Script} (h : parse source = .ok s) :
    ∃ stream, tokenize source = .ok stream ∧ Grammar.DerivesScript stream.tokens s := by
  unfold parse at h
  split at h
  · cases h
  · rename_i stream htokenize
    split at h
    · cases h
    · rename_i s' hscript
      cases h
      exact ⟨stream, htokenize, Parser.toScript_sound hscript⟩

end Requirements
