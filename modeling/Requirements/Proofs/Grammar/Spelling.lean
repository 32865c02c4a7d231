import Mathlib.Tactic.Lemma
import Requirements.Proofs.Token.Spelling

/-!
# The text of an expression

Where every name, version and range in it is one that could be cut off a text, the text that is
printed for an expression spells the words of the expression, as long as no character follows that
would continue a name or a version.
-/

namespace Requirements

/-! ### Expressions made of proper words -/

/-- The versions of a condition are literals. -/
def Constraint.Proper : Constraint → Prop
  | .compare _ v => v.IsLiteral
  | .within set => ∀ r ∈ set.ranges, r.IsLiteral

namespace Expr

/-- The names in an expression are written like names, and its versions are literals. -/
def Proper : Expr → Prop
  | version v => v.IsLiteral
  | package name constraint features =>
    IsName name ∧ (∀ c, constraint = some c → c.Proper) ∧ ∀ f ∈ features, IsName f
  | reference name => IsName name
  | compare _ lhs rhs => lhs.Proper ∧ rhs.Proper
  | within operand set => operand.Proper ∧ ∀ r ∈ set.ranges, r.IsLiteral
  | tagged operand tag => operand.Proper ∧ IsName tag
  | logical _ lhs rhs => lhs.Proper ∧ rhs.Proper
  | _ => True

/-- A comparison of proper sides is proper, folded or not. -/
lemma Proper.comparison {lhs rhs : Expr} (hl : lhs.Proper) (hr : rhs.Proper) (op : CompareOp) :
    (Expr.comparison op lhs rhs).Proper := by
  rcases Grammar.comparison_cases op lhs rhs with
    ⟨name, features, v, rfl, rfl, h⟩ | ⟨name, features, v, rfl, rfl, h⟩ | h
  · rw [h]
    obtain ⟨hname, -, hfeatures⟩ := hl
    exact ⟨hname, by rintro c ⟨⟩; exact hr, hfeatures⟩
  · rw [h]
    obtain ⟨hname, -, hfeatures⟩ := hr
    exact ⟨hname, by rintro c ⟨⟩; exact hl, hfeatures⟩
  · rw [h]
    exact ⟨hl, hr⟩

/-- A set test of a proper operand is proper, folded or not. -/
lemma Proper.membership {operand : Expr} (h : operand.Proper) {set : Version.RangeSet}
    (hset : ∀ r ∈ set.ranges, r.IsLiteral) : (operand.membership set).Proper := by
  rcases Grammar.membership_cases operand set with ⟨name, features, rfl, hfold⟩ | hwithin
  · rw [hfold]
    obtain ⟨hname, -, hfeatures⟩ := h
    exact ⟨hname, by rintro c ⟨⟩; exact hset, hfeatures⟩
  · rw [hwithin]
    exact ⟨h, hset⟩

end Expr

namespace Grammar

/-- What proper words derive is made of them. -/
theorem Derives.proper {inChoice : Bool} {levels : Nat} {strength : Expr.Strength}
    {words : List Lexeme} {e : Expr} (h : Derives inChoice levels strength words e)
    (hwords : ∀ w ∈ words, w.Proper) : e.Proper := by
  induction h with
  | @name levels name hname => exact ⟨hwords (.name name) (by simp), by rintro c ⟨⟩, by simp⟩
  | @features levels name first others hname =>
    refine ⟨hwords (.name name) (by simp), by rintro c ⟨⟩, fun f hf => hwords (.name f) ?_⟩
    rcases List.mem_cons.mp hf with rfl | hf
    · simp [featureWords]
    · simp [featureWords, hf]
  | probe first others hname => trivial
  | braces name =>
    unfold braced
    split
    · trivial
    · exact hwords (.name name) (by simp)
  | text value => trivial
  | version value => exact hwords (.version value) (by simp)
  | yes => trivial
  | no => trivial
  | parens _ ih => exact ih fun w hw => hwords w (by simp [hw])
  | lift _ _ ih => exact ih hwords
  | compare op _ _ ihl ihr =>
    exact (ihl fun w hw => hwords w (by simp [hw])).comparison
      (ihr fun w hw => hwords w (by simp [hw])) op
  | @within levels words operand ranges _ hne hfull ih =>
    refine (ih fun w hw => hwords w (by simp [hw])).membership fun r hr => ?_
    obtain ⟨spelled, hspelled, rfl⟩ := List.mem_map.mp hr
    refine hwords (.range spelled.1 spelled.2) ?_
    simp only [List.mem_append, List.mem_cons, rangeWords, List.mem_map]
    exact .inr (.inr (.inr (.inl ⟨spelled, hspelled, rfl⟩)))
  | tagged tag hchoice _ ih =>
    exact ⟨ih fun w hw => hwords w (by simp [hw]), hwords (.name tag) (by simp)⟩
  | logical op _ _ ihl ihr =>
    exact ⟨ihl fun w hw => hwords w (by simp [hw]), ihr fun w hw => hwords w (by simp [hw])⟩

end Grammar

namespace Lexer

open Text

/-! ### What may follow an expression -/

/-- The text continues neither a name nor a version. -/
def EndsExpr (cs : List Char) : Prop :=
  ∀ c, cs.head? = some c → isWord c = false ∧ c ≠ ':' ∧ c ≠ '.'

/-- What ends an expression ends a name. -/
lemma EndsExpr.endsName {cs : List Char} (h : EndsExpr cs) : EndsName cs :=
  fun c hc => ⟨(h c hc).1, (h c hc).2.1⟩

/-- What ends an expression ends a version. -/
lemma EndsExpr.endsLiteral {cs : List Char} (h : EndsExpr cs) : Version.EndsLiteral cs := by
  intro c hc
  obtain ⟨hword, -, hpoint⟩ := h c hc
  have hsuffix : isSuffixChar c = false := by
    by_contra hne
    rw [isWord_of_isSuffixChar (by simpa using hne)] at hword
    cases hword
  simp [Version.isLiteralChar, hsuffix, hpoint]

/-- A text that starts with a sign ends an expression. -/
lemma endsExpr_cons {c : Char} (h : isWord c = false ∧ c ≠ ':' ∧ c ≠ '.') (cs : List Char) :
    EndsExpr (c :: cs) := by
  rintro d ⟨⟩
  exact h

/-! ### Texts of expressions -/

/-- Outside version sets and feature lists, the text spells the words if what follows does not
continue a name or a version. -/
def Spelled (text : String) (words : List Lexeme) : Prop :=
  ∀ rest, EndsExpr rest → Spells .plain .plain text.toList rest words

namespace Spelled

variable {text : String} {words : List Lexeme}

/-- Two texts with a word between them that stands apart from both. -/
theorem spaced {left middle right : String} {before between behind : List Lexeme}
    (hleft : Spelled left before)
    (hmiddle : ∀ rest, Spells .plain .plain middle.toList (' ' :: rest) between)
    (hright : Spelled right behind) :
    Spelled (left ++ " " ++ middle ++ " " ++ right) (before ++ between ++ behind) := by
  intro rest hrest
  have hblank (rest : List Char) : Spells .plain .plain [' '] rest [] := spells_blank _ _
  have htail := (hblank _).append ((hmiddle _).append ((hblank _).append (hright rest hrest)))
  have hall := (hleft _ (endsExpr_cons (by decide) _)).append htail
  simpa using hall

/-- Parentheses around a spelled text are spelled. -/
lemma parens (h : Spelled text words) :
    Spelled ("(" ++ text ++ ")") (.mark .openParen :: (words ++ [.mark .closeParen])) := by
  intro rest hrest
  have hinner : Spells .plain .plain text.toList (Mark.closeParen.char :: rest) words :=
    h _ (endsExpr_cons (by decide) rest)
  have hopening : Mark.openParen ≠ .assign := by decide
  simpa [Mark.char] using spells_between hopening (by decide) hinner

/-- The parentheses that a place asks for are spelled. -/
lemma parenthesize (place actual : Expr.Strength) (h : Spelled text words) :
    Spelled (Expr.parenthesize place actual text) (Expr.wrapped place actual words) := by
  unfold Expr.parenthesize Expr.wrapped
  split
  · exact h.parens
  · exact h

/-- A name spells itself. -/
lemma name {s : String} (h : IsName s) : Spelled s [.name s] :=
  fun _ hrest => spells_name 0 h hrest.endsName

/-- A tag is spelled behind its colon. -/
lemma tag {s : String} (h : IsName s) : Spelled (":" ++ s) [.mark .colon, .name s] := by
  intro rest hrest
  have hcolon (rest : List Char) : Spells .plain .plain [':'] rest [.mark .colon] :=
    spells_plain_mark (m := .colon) (by decide) rest
  have hall := (hcolon _).append (name h rest hrest)
  simpa using hall

/-- A version spells itself, if it is one that can be written. -/
lemma version {v : Version} (h : v.IsLiteral) : Spelled v.toText [.version v] :=
  fun _ hrest => spells_version 0 h hrest.endsLiteral

/-- A version set spells its ranges, if they can be written. -/
lemma set {set : Version.RangeSet} (h : ∀ r ∈ set.ranges, r.IsLiteral) :
    Spelled set.toText (Expr.setWords set) :=
  fun rest _ => spells_set h rest

/-- A name in braces spells three words. -/
lemma braced {s : String} (h : IsName s) :
    Spelled (Expr.braced s) [.mark .openBrace, .name s, .mark .closeBrace] := by
  intro rest hrest
  have hinner : Spells .plain .plain s.toList (Mark.closeBrace.char :: rest) [.name s] :=
    name h _ (endsExpr_cons (by decide) rest)
  have hopening : Mark.openBrace ≠ .assign := by decide
  simpa [Expr.braced, Mark.char] using spells_between hopening (by decide) hinner

/-- A truth value spells its keyword. -/
lemma bool (value : Bool) :
    Spelled (Expr.bool value).format [.keyword (if value then .yes else .no)] := by
  intro rest hrest
  cases value with
  | true => exact spells_keyword 0 .yes hrest.endsName
  | false => exact spells_keyword 0 .no hrest.endsName

/-- A probe spells its name and its arguments in parentheses. -/
lemma probe (kind : Probe) (args : List String) :
    Spelled (Expr.probe kind args).format (Expr.probe kind args).words := by
  intro rest hrest
  have hname : IsName kind.name := by
    cases kind <;> exact ⟨_, _, rfl, rfl, rfl, rfl⟩
  have hargs : Spells .plain .plain (", ".intercalate (args.map Expr.literal)).toList
      (Mark.closeParen.char :: rest) (Expr.argumentList args) := by
    cases args with
    | nil => exact .nil _ _
    | cons first others =>
      have hseparator (rest : List Char) :
          Spells .plain .plain ", ".toList rest [.mark .comma] :=
        (spells_plain_mark (m := .comma) (by decide) _).append (spells_blank _ _)
      have hends (rest : List Char) : EndsExpr (", ".toList ++ rest) :=
        endsExpr_cons (c := ',') (by decide) _
      have hspells := spells_list Expr.literal (fun a => [.quoted a]) hseparator hends first others
        (fun a _ rest _ => spells_quoted 0 a rest) (endsExpr_cons (c := ')') (by decide) rest)
      simpa [Expr.argumentList, Grammar.argumentWords, Mark.char] using hspells
  have hopening : Mark.openParen ≠ .assign := by decide
  have hall := (name hname _ (endsExpr_cons (by decide) _)).append
    (spells_between hopening (by decide) hargs)
  simpa [Expr.format, Expr.words, Mark.char] using hall

/-- The keyword of set tests spells itself in front of a blank. -/
lemma spells_in (rest : List Char) :
    Spells .plain .plain "in".toList (' ' :: rest) [.keyword .membership] :=
  spells_keyword 0 .membership (endsExpr_cons (by decide) rest).endsName

/-- A module spells its name, its condition and its features. -/
lemma package {name : String} {constraint : Option Constraint} {features : List String}
    (h : (Expr.package name constraint features).Proper) :
    Spelled (Expr.package name constraint features).format
      (Expr.package name constraint features).words := by
  obtain ⟨hname, hconstraint, hfeatures⟩ := h
  have hpackage : Spelled (Expr.packageText name features) (Expr.packageWords name features) :=
    fun rest hrest => spells_package hname hfeatures hrest.endsName
  cases constraint with
  | none =>
    simpa [Expr.format, Expr.words, Expr.constraintText, Expr.constraintWords] using hpackage
  | some constraint =>
    have hproper := hconstraint constraint rfl
    cases constraint with
    | compare op v =>
      intro rest hrest
      have hall := hpackage.spaced (fun rest => spells_compare 0 op rest) (version hproper) rest
        hrest
      simpa [Expr.format, Expr.words, Expr.constraintText, Expr.constraintWords] using hall
    | within s =>
      intro rest hrest
      have hall := hpackage.spaced spells_in (set hproper) rest hrest
      simpa [Expr.format, Expr.words, Expr.constraintText, Expr.constraintWords] using hall

end Spelled

/-- The text of an expression spells its words. -/
theorem spelled_format {e : Expr} (h : e.Proper) : Spelled e.format e.words := by
  induction e with
  | bool value => exact .bool value
  | text value => exact fun rest _ => spells_quoted 0 value rest
  | version v => exact .version h
  | package name constraint features => exact .package h
  | platform fact =>
    have hname : IsName fact.name := by
      cases fact <;> exact ⟨_, _, rfl, rfl, rfl, rfl⟩
    exact .braced hname
  | reference name => exact .braced h
  | probe kind args => exact .probe kind args
  | compare op lhs rhs ihl ihr =>
    intro rest hrest
    have hall := ((ihl h.1).parenthesize (Grammar.operandStrength op) lhs.strength).spaced
      (fun rest => spells_compare 0 op rest)
      ((ihr h.2).parenthesize (Grammar.operandStrength op) rhs.strength) rest hrest
    simpa [Expr.format, Expr.words, Grammar.operandStrength] using hall
  | within operand set ih =>
    intro rest hrest
    have hall := ((ih h.1).parenthesize .equality operand.strength).spaced Spelled.spells_in
      (.set h.2) rest hrest
    simpa [Expr.format, Expr.words] using hall
  | tagged operand tag ih =>
    intro rest hrest
    have has (rest : List Char) :
        Spells .plain .plain "as".toList (' ' :: rest) [.keyword .tagging] :=
      spells_keyword 0 .tagging (endsExpr_cons (by decide) rest).endsName
    have hall := ((ih h.1).parenthesize .within operand.strength).spaced has (.tag h.2) rest hrest
    simpa [Expr.format, Expr.words] using hall
  | logical op lhs rhs ihl ihr =>
    intro rest hrest
    have hall := (ihl h.1).spaced (fun rest => spells_logical 0 op (' ' :: rest))
      ((ihr h.2).parenthesize .tagged rhs.strength) rest hrest
    simpa [Expr.format, Expr.words] using hall

end Lexer

end Requirements
