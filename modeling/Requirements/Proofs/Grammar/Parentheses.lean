import Mathlib.Tactic.Lemma
import Requirements.Proofs.Grammar.Printing

/-!
# Necessary parentheses

Wherever words derive an expression, they hold at least as many opening parentheses as the printer
writes for it. So no parenthesis can be spared: with one less, the words derive another expression,
or none.
-/

namespace Requirements

open Grammar

namespace Expr

/-! ### Opening parentheses of printed words -/

/-- The number of opening parentheses among the words. Those of feature lists are words of another
kind. -/
def openings (words : List Lexeme) : Nat :=
  words.count (.mark .openParen)

@[simp] lemma openings_nil : openings [] = 0 := rfl

@[simp] lemma openings_cons (l : Lexeme) (words : List Lexeme) :
    openings (l :: words) = openings words + if l = .mark .openParen then 1 else 0 := by
  simp [openings, List.count_cons]

/-- Opening parentheses are counted part by part. -/
@[simp] lemma openings_append (left right : List Lexeme) :
    openings (left ++ right) = openings left + openings right :=
  List.count_append

/-- Without an opening parenthesis the count is zero. -/
lemma openings_eq_zero {words : List Lexeme} (h : ∀ l ∈ words, l ≠ .mark .openParen) :
    openings words = 0 :=
  List.count_eq_zero.mpr fun hmem => h _ hmem rfl

/-- A version set is written without parentheses. -/
@[simp] lemma openings_setWords (set : Version.RangeSet) : openings (setWords set) = 0 := by
  have hranges : openings (rangeWords (spelledRanges set)) = 0 := by
    refine openings_eq_zero fun l hl => ?_
    obtain ⟨text, r, rfl⟩ := mem_rangeWords hl
    simp
  simp [setWords, hranges]

/-- A condition on a version is written without parentheses. -/
@[simp] lemma openings_constraintWords (c : Option Constraint) :
    openings (constraintWords c) = 0 := by
  rcases c with _ | ⟨op, v⟩ | set <;> simp [constraintWords]

/-- A module is written without parentheses, those of its features being words of another kind. -/
@[simp] lemma openings_packageWords (name : String) (features : List String) :
    openings (packageWords name features) = 0 := by
  cases features with
  | nil => simp [packageWords]
  | cons first others =>
    have hlist : openings (featureWords first others) = 0 := by
      refine openings_eq_zero fun l hl => ?_
      rcases mem_featureWords hl with rfl | ⟨f, rfl⟩ <;> simp
    simp [packageWords, hlist]

/-- A part is put in parentheses if it is too weak for its place. -/
lemma openings_wrapped (place actual : Strength) (words : List Lexeme) :
    openings (wrapped place actual words) =
      openings words + if actual.rank < place.rank then 1 else 0 := by
  unfold wrapped
  split <;> simp

/-- A place that demands less gives rise to no more parentheses. -/
theorem openings_wrapped_mono {place stronger : Strength} (hle : place.rank ≤ stronger.rank)
    (actual : Strength) (words : List Lexeme) :
    openings (wrapped place actual words) ≤ openings (wrapped stronger actual words) := by
  rw [openings_wrapped, openings_wrapped]
  split_ifs <;> omega

/-- Nothing demands less than the place of a whole expression. -/
@[simp] theorem wrapped_logical (actual : Strength) (words : List Lexeme) :
    wrapped .logical actual words = words :=
  if_neg (Nat.not_lt_zero actual.rank)

/-- In its own place, an expression needs no parentheses. -/
@[simp] theorem wrapped_self (place : Strength) (words : List Lexeme) :
    wrapped place place words = words :=
  if_neg (Nat.lt_irrefl place.rank)

/-- The canonical form has the same operator at its root. -/
@[simp] lemma strength_canonical (e : Expr) : e.canonical.strength = e.strength := by
  cases e with
  | package name constraint features => rcases constraint with _ | ⟨op, v⟩ | set <;> rfl
  | _ => rfl

/-- Equal expressions are printed with the same number of parentheses. -/
@[simp] theorem openings_words_canonical (e : Expr) :
    openings e.canonical.words = openings e.words := by
  induction e with
  | package name constraint features => simp [canonical, words]
  | compare op lhs rhs ihl ihr => simp [canonical, words, openings_wrapped, ihl, ihr]
  | within operand set ih => simp [canonical, words, openings_wrapped, ih]
  | tagged operand tag ih => simp [canonical, words, openings_wrapped, ih]
  | logical op lhs rhs ihl ihr => simp [canonical, words, openings_wrapped, ihl, ihr]
  | _ => rfl

/-- Expressions with the same canonical form are printed with as many parentheses. -/
lemma openings_words_eq_of_canonical_eq {e e' : Expr} (h : e'.canonical = e.canonical) :
    openings e'.words = openings e.words := by
  rw [← openings_words_canonical, h, openings_words_canonical]

end Expr

namespace Grammar

open Requirements.Expr (Strength openings wrapped)

variable {inChoice : Bool} {levels : Nat} {place : Strength} {words : List Lexeme} {e : Expr}

/-- The printer writes no more opening parentheses than any words have that derive the expression in
the same place. -/
theorem Derives.openings_le (h : Derives inChoice levels place words e) :
    openings (wrapped place e.strength e.words) ≤ openings words := by
  induction h with
  | name _ | features _ _ _ => simp [Expr.words, Expr.strength]
  | probe first others _ => simp [Expr.words, Expr.argumentList, Expr.strength]
  | braces name =>
    unfold braced
    split <;> simp [Expr.words, Expr.strength]
  | text _ | version _ | yes | no => simp [Expr.words, Expr.strength]
  | parens _ ih =>
    rw [Expr.wrapped_logical] at ih
    simp only [Expr.openings_wrapped, Expr.openings_cons, Expr.openings_append, if_true]
    split_ifs <;> omega
  | lift hrank _ ih => exact Nat.le_trans (Expr.openings_wrapped_mono (by omega) _ _) ih
  | @compare levels left right lhs rhs op _ _ ihl ihr =>
    rcases comparison_cases op lhs rhs with ⟨name, features, v, rfl, rfl, hfold⟩ |
      ⟨name, features, v, rfl, rfl, hfold⟩ | hcompare
    · simp [hfold, Expr.words, Expr.strength]
    · have hplace : Strength.ofCompare op.swap = Strength.ofCompare op := by cases op <;> rfl
      simp [hfold, Expr.words, Expr.strength, hplace]
    · rw [hcompare, Expr.strength, Expr.wrapped_self, Expr.words]
      simp only [Expr.openings_append, Expr.openings_cons]
      omega
  | @within levels words operand ranges _ _ _ ih =>
    rcases membership_cases operand ⟨ranges.map Prod.snd⟩ with
      ⟨name, features, rfl, hfold⟩ | hwithin
    · simp [hfold, Expr.words, Expr.strength]
    · rw [hwithin, Expr.strength, Expr.wrapped_self, Expr.words]
      simp only [Expr.openings_append, Expr.openings_cons, Expr.openings_setWords]
      omega
  | tagged tag _ _ ih =>
    rw [Expr.strength, Expr.wrapped_self, Expr.words]
    simp only [Expr.openings_append]
    omega
  | logical op _ _ ihl ihr =>
    rw [Expr.wrapped_logical] at ihl
    rw [Expr.wrapped_logical, Expr.words]
    simp only [Expr.openings_append, Expr.openings_cons]
    omega

/-- Words with fewer opening parentheses than the printer writes for an expression do not derive an
expression that is equal to it. -/
theorem Derives.canonical_ne {printed : Expr} (h : Derives inChoice levels .logical words e)
    (hlt : openings words < openings printed.words) : e.canonical ≠ printed.canonical := by
  intro heq
  have hle : openings e.words ≤ openings words := by
    simpa using h.openings_le
  rw [Expr.openings_words_eq_of_canonical_eq heq] at hle
  omega

end Grammar

end Requirements
