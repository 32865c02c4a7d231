import Mathlib.Tactic.Lemma
import Requirements.Proofs.Expr.Respelling
import Requirements.Proofs.Grammar.Derivation

/-!
# The words of a printed expression

The printer puts parentheses around an operand only where the operand could not have been derived
without. So the words that it writes for a derived expression derive the respelled expression, and
they need no more levels of parentheses than the words that the expression came from.
-/

namespace Requirements

open Grammar

namespace Expr

/-! ### Words -/

/-- The words of an operand, in parentheses if it binds less strongly than its place demands. -/
def wrapped (place actual : Strength) (words : List Lexeme) : List Lexeme :=
  if actual.rank < place.rank then .mark .openParen :: (words ++ [.mark .closeParen]) else words

/-- The words of a module with its feature list. -/
def packageWords (name : String) : List String → List Lexeme
  | [] => [.name name]
  | first :: others =>
    .name name :: .openFeatures :: (featureWords first others ++ [.mark .closeParen])

/-- The ranges of a set as they are read back, with their texts. -/
def spelledRanges (set : Version.RangeSet) : List (String × Version.Range) :=
  set.ranges.map fun r => (r.toText, r.respell)

/-- The words of a version set. -/
def setWords (set : Version.RangeSet) : List Lexeme :=
  .openSet :: (rangeWords (spelledRanges set) ++ [.closeSet])

/-- The words of a condition behind a module. -/
def constraintWords : Option Constraint → List Lexeme
  | none => []
  | some (.within set) => .keyword .membership :: setWords set
  | some (.compare op v) => [.compare op, .version v]

/-- The words of a list of arguments. -/
def argumentList : List String → List Lexeme
  | [] => []
  | first :: others => argumentWords first others

/-- The words that the printer writes for an expression. -/
def words : Expr → List Lexeme
  | bool value => [.keyword (if value then .yes else .no)]
  | text value => [.quoted value]
  | version v => [.version v]
  | package name constraint features => packageWords name features ++ constraintWords constraint
  | platform fact => [.mark .openBrace, .name fact.name, .mark .closeBrace]
  | reference name => [.mark .openBrace, .name name, .mark .closeBrace]
  | probe kind args =>
    .name kind.name :: .mark .openParen :: (argumentList args ++ [.mark .closeParen])
  | compare op lhs rhs =>
    wrapped (operandStrength op) lhs.strength lhs.words ++
      .compare op :: wrapped (operandStrength op) rhs.strength rhs.words
  | within operand set =>
    wrapped .equality operand.strength operand.words ++ .keyword .membership :: setWords set
  | tagged operand tag =>
    wrapped .within operand.strength operand.words ++ [.keyword .tagging, .mark .colon, .name tag]
  | logical op lhs rhs =>
    lhs.words ++ .logical op :: wrapped .tagged rhs.strength rhs.words

end Expr

/-! ### Names -/

/-- A probe is known by its name only. -/
lemma Probe.ofName?_eq_some_iff {name : String} {kind : Probe} :
    Probe.ofName? name = some kind ↔ name = kind.name := by
  constructor
  · intro h
    have hname := List.find?_some h
    exact (by simpa using hname : kind.name = name).symm
  · rintro rfl
    cases kind <;> rfl

/-- A platform constant is known by its name only. -/
lemma Platform.ofName?_eq_some_iff {name : String} {fact : Platform} :
    Platform.ofName? name = some fact ↔ name = fact.name := by
  constructor
  · intro h
    have hname := List.find?_some h
    exact (by simpa using hname : fact.name = name).symm
  · rintro rfl
    cases fact <;> rfl

namespace Grammar

open Requirements.Expr (Strength)

variable {inChoice : Bool} {levels : Nat} {strength : Strength} {e : Expr}

/-- More levels of parentheses do no harm. -/
theorem Derives.mono {more : Nat} {words : List Lexeme} (hle : levels ≤ more)
    (h : Derives inChoice levels strength words e) : Derives inChoice more strength words e := by
  induction h generalizing more with
  | name hname => exact .name hname
  | features first others hname => exact .features first others hname
  | probe first others hname => exact .probe first others hname
  | braces name => exact .braces name
  | text value => exact .text value
  | version value => exact .version value
  | yes => exact .yes
  | no => exact .no
  | parens _ ih =>
    obtain ⟨more, rfl⟩ : ∃ m, more = m + 1 := ⟨more - 1, by omega⟩
    exact .parens (ih (by omega))
  | lift hrank _ ih => exact .lift hrank (ih hle)
  | compare op _ _ ihl ihr => exact .compare op (ihl hle) (ihr hle)
  | within _ hne hfull ih => exact .within (ih hle) hne hfull
  | tagged tag hchoice _ ih => exact .tagged tag hchoice (ih hle)
  | logical op _ _ ihl ihr => exact .logical op (ihl hle) (ihr hle)

/-- The words of the printed expression derive it, respelled, at the place that it binds like. The
parentheses around it that its place may demand are not among the levels used. -/
def Prints (inChoice : Bool) (levels : Nat) (place : Strength) (e : Expr) : Prop :=
  ∃ used ≤ levels, Derives inChoice used e.strength e.words e.respell ∧
    (e.strength.rank < place.rank → used < levels)

namespace Prints

/-- In its place, the printed expression stands between parentheses if need be. -/
theorem wrapped (h : Prints inChoice levels strength e) :
    Derives inChoice levels strength (Expr.wrapped strength e.strength e.words) e.respell := by
  obtain ⟨used, hused, hderives, hparens⟩ := h
  unfold Expr.wrapped
  split
  · rename_i hrank
    obtain ⟨levels, rfl⟩ : ∃ l, levels = l + 1 := ⟨levels - 1, by have := hparens hrank; omega⟩
    have hlt := hparens hrank
    have hwhole : Derives inChoice levels .logical e.words e.respell :=
      (hderives.weaken (by simp [Strength.rank])).mono (by omega)
    exact hwhole.parens.weaken (by cases strength <;> simp [Strength.rank])
  · rename_i hrank
    exact (hderives.weaken (by omega)).mono hused

/-- What binds like its place demands needs no parentheses. -/
theorem of_derives (hstrength : e.strength = strength)
    (h : Derives inChoice levels strength e.words e.respell) :
    Prints inChoice levels strength e :=
  ⟨levels, Nat.le_refl levels, hstrength ▸ h, fun hlt => absurd (hstrength ▸ hlt) (Nat.lt_irrefl _)⟩

/-- At a place that demands less than the expression binds, the parentheses are not needed. -/
theorem unwrapped (h : Prints inChoice levels strength e) {place : Strength}
    (hle : place.rank ≤ e.strength.rank) : Derives inChoice levels place e.words e.respell := by
  obtain ⟨used, hused, hderives, -⟩ := h
  exact (hderives.weaken hle).mono hused

end Prints

/-! ### Folded expressions -/

/-- A set that was derived has ranges, none of them empty. -/
structure Inhabited (set : Version.RangeSet) : Prop where
  ranges : set.ranges ≠ []
  full : ∀ r ∈ set.ranges, r.isEmpty = false

/-- A set test derives from its operand and the words of its set, whose ranges are read again. -/
lemma derives_within {words : List Lexeme} (h : Derives inChoice levels .equality words e)
    {set : Version.RangeSet} (hset : Inhabited set) :
    Derives inChoice levels .within (words ++ .keyword .membership :: Expr.setWords set)
      (e.membership set.respell) := by
  have hranges : set.respell = ⟨(Expr.spelledRanges set).map Prod.snd⟩ := by
    simp [Version.RangeSet.respell, Expr.spelledRanges]
  rw [hranges]
  refine .within h ?_ fun r hr => ?_
  · simpa [Expr.spelledRanges] using hset.ranges
  · obtain ⟨range, hrange, rfl⟩ := List.mem_map.mp hr
    simpa using hset.full range hrange

/-- A comparison of a module with a version is folded into the module, on either side. -/
lemma comparison_cases (op : CompareOp) (lhs rhs : Expr) :
    (∃ name features v, lhs = .package name none features ∧ rhs = .version v ∧
      Expr.comparison op lhs rhs = .package name (some (.compare op v)) features) ∨
    (∃ name features v, lhs = .version v ∧ rhs = .package name none features ∧
      Expr.comparison op lhs rhs = .package name (some (.compare op.swap v)) features) ∨
    Expr.comparison op lhs rhs = .compare op lhs rhs := by
  unfold Expr.comparison
  split
  · exact .inl ⟨_, _, _, rfl, rfl, rfl⟩
  · exact .inr (.inl ⟨_, _, _, rfl, rfl, rfl⟩)
  · exact .inr (.inr rfl)

/-- A set test of a module is folded into the module. -/
lemma membership_cases (operand : Expr) (set : Version.RangeSet) :
    (∃ name features, operand = .package name none features ∧
      operand.membership set = .package name (some (.within set)) features) ∨
    operand.membership set = .within operand set := by
  unfold Expr.membership
  split
  · exact .inl ⟨_, _, rfl, rfl⟩
  · exact .inr rfl

/-- The printed operand of a comparison, as long as it needs no parentheses. -/
theorem Prints.operand {op : CompareOp} (h : Prints inChoice levels (operandStrength op) e)
    (hprimary : e.strength = .primary) :
    Derives inChoice levels (operandStrength op) e.words e.respell := by
  refine h.unwrapped ?_
  rw [hprimary]
  unfold operandStrength
  split <;> simp [Strength.rank]

/-- A comparison is printed as words that it derives from, if its sides are. -/
lemma prints_comparison {op : CompareOp} {lhs rhs : Expr}
    (hl : Prints inChoice levels (operandStrength op) lhs)
    (hr : Prints inChoice levels (operandStrength op) rhs) :
    Prints inChoice levels (.ofCompare op) (.comparison op lhs rhs) := by
  rcases comparison_cases op lhs rhs with
    ⟨name, features, v, rfl, rfl, hfold⟩ | ⟨name, features, v, rfl, rfl, hfold⟩ | hcompare
  · rw [hfold]
    refine .of_derives rfl ?_
    have hall := Derives.compare op (hl.operand rfl) (hr.operand rfl)
    rw [← Expr.comparison_respell, hfold] at hall
    simpa [Expr.words, Expr.constraintWords] using hall
  · have hswap : operandStrength op.swap = operandStrength op := by cases op <;> rfl
    have hplace : Strength.ofCompare op.swap = Strength.ofCompare op := by cases op <;> rfl
    rw [hfold]
    refine .of_derives hplace ?_
    have hall := Derives.compare op.swap (hswap ▸ hr.operand rfl) (hswap ▸ hl.operand rfl)
    have hname : Expr.comparison op.swap (.package name none features) (.version v) =
        .package name (some (.compare op.swap v)) features := rfl
    rw [hplace, ← Expr.comparison_respell, hname] at hall
    simpa [Expr.words, Expr.constraintWords] using hall
  · rw [hcompare]
    refine .of_derives rfl ?_
    have hall := Derives.compare op hl.wrapped hr.wrapped
    rw [← Expr.comparison_respell, hcompare] at hall
    exact hall

/-- A set test is printed as words that it derives from, if its operand is. -/
lemma prints_membership {set : Version.RangeSet} (h : Prints inChoice levels .equality e)
    (hset : Inhabited set) : Prints inChoice levels .within (e.membership set) := by
  rcases membership_cases e set with ⟨name, features, rfl, hfold⟩ | hwithin
  · rw [hfold]
    refine .of_derives rfl ?_
    have hname : Derives inChoice levels .equality (Expr.package name none features).words
        (.package name none features) := h.unwrapped (by simp [Expr.strength, Strength.rank])
    have hall := derives_within hname hset
    have hrespell : (Expr.package name none features).membership set.respell =
        (Expr.package name (some (.within set)) features).respell := rfl
    rw [hrespell] at hall
    simpa [Expr.words, Expr.constraintWords] using hall
  · rw [hwithin]
    refine .of_derives rfl ?_
    have hall := derives_within h.wrapped hset
    rw [← Expr.membership_respell, hwithin] at hall
    exact hall

/-! ### Printed expressions -/

/-- An expression that was derived is printed with words that derive it, respelled. -/
theorem prints_of_derives {words : List Lexeme} (h : Derives inChoice levels strength words e) :
    Prints inChoice levels strength e := by
  induction h with
  | name hname => exact .of_derives rfl (.name hname)
  | features first others hname =>
    refine .of_derives rfl ?_
    simpa [Expr.words, Expr.packageWords, Expr.constraintWords, Expr.respell] using
      Derives.features first others hname
  | probe first others hname =>
    obtain rfl := Probe.ofName?_eq_some_iff.mp hname
    exact .of_derives rfl (.probe first others hname)
  | @braces levels name =>
    have hbraces : Derives inChoice levels .primary _ (braced name) := .braces name
    unfold braced at hbraces ⊢
    split
    · rename_i fact hfact
      rw [hfact] at hbraces
      obtain rfl := Platform.ofName?_eq_some_iff.mp hfact
      exact .of_derives rfl hbraces
    · rename_i hnone
      rw [hnone] at hbraces
      exact .of_derives rfl hbraces
  | text value => exact .of_derives rfl (.text value)
  | version value => exact .of_derives rfl (.version value)
  | yes => exact .of_derives rfl .yes
  | no => exact .of_derives rfl .no
  | parens _ ih =>
    obtain ⟨used, hused, hderives, -⟩ := ih
    exact ⟨used, by omega, hderives, fun _ => by omega⟩
  | lift hrank _ ih =>
    obtain ⟨used, hused, hderives, hparens⟩ := ih
    exact ⟨used, hused, hderives, fun hlt => hparens (by omega)⟩
  | compare op _ _ ihl ihr => exact prints_comparison ihl ihr
  | within _ hne hfull ih =>
    refine prints_membership ih ⟨by simpa using hne, fun r hr => ?_⟩
    obtain ⟨spelled, hspelled, rfl⟩ := List.mem_map.mp hr
    exact hfull spelled hspelled
  | tagged tag hchoice _ ih => exact .of_derives rfl (.tagged tag hchoice ih.wrapped)
  | logical op _ _ ihl ihr =>
    exact .of_derives rfl (.logical op (ihl.unwrapped (by simp [Strength.rank])) ihr.wrapped)

/-- The words of a printed expression derive it, respelled. -/
theorem derives_words {words : List Lexeme} (h : Derives inChoice levels .logical words e) :
    Derives inChoice levels .logical e.words e.respell :=
  (prints_of_derives h).unwrapped (by simp [Strength.rank])

end Grammar

end Requirements
