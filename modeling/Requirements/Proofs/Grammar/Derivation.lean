import Mathlib.Tactic.Lemma
import Requirements.Program.Parser
import Requirements.Proofs.Expr.Nodes

/-!
# The grammar

The grammar of programs as a relation: which words derive which expression at a place that demands
a binding strength. Connectives are derived to the left, so that a derivation groups them as the
reader does, and a derivation with `levels` opens at most that many parentheses inside of each
other.

Lists that the grammar separates by a word are written here with their first member apart.
-/

namespace Requirements

namespace Expr.Strength

/-- Places of different strength have different ranks. -/
lemma rank_injective {s t : Strength} (h : s.rank = t.rank) : s = t := by
  cases s <;> cases t <;> first | rfl | cases h

/-- Behind every strength but the strongest comes another. -/
theorem exists_next {t : Strength} (s : Strength) (h : s.rank < t.rank) :
    ∃ next : Strength, s.rank + 1 = next.rank := by
  cases s with
  | logical => exact ⟨.tagged, rfl⟩
  | tagged => exact ⟨.within, rfl⟩
  | within => exact ⟨.equality, rfl⟩
  | equality => exact ⟨.ordering, rfl⟩
  | ordering => exact ⟨.primary, rfl⟩
  | primary => cases t <;> simp [rank] at h

end Expr.Strength

namespace Grammar

open Requirements.Expr (Strength)

/-! ### Words of the parts of an expression -/

/-- The words of a conjunction of features. -/
def featureWords (first : String) (others : List String) : List Lexeme :=
  .name first :: others.flatMap fun f => [.logical .and, .name f]

/-- The words of the arguments of a probe. -/
def argumentWords (first : String) (others : List String) : List Lexeme :=
  .quoted first :: others.flatMap fun a => [.mark .comma, .quoted a]

/-- The words of the ranges of a version set, each with its text. -/
def rangeWords (ranges : List (String × Version.Range)) : List Lexeme :=
  ranges.map fun r => .range r.1 r.2

/-- The words of features are names and the signs between them. -/
lemma mem_featureWords {first : String} {others : List String} {l : Lexeme}
    (h : l ∈ featureWords first others) : l = .logical .and ∨ ∃ f, l = .name f := by
  simp only [featureWords, List.mem_cons, List.mem_flatMap, List.not_mem_nil, or_false] at h
  rcases h with rfl | ⟨f, -, rfl | rfl⟩
  · exact .inr ⟨first, rfl⟩
  · exact .inl rfl
  · exact .inr ⟨f, rfl⟩

/-- The words of arguments are texts and the commas between them. -/
lemma mem_argumentWords {first : String} {others : List String} {l : Lexeme}
    (h : l ∈ argumentWords first others) : l = .mark .comma ∨ ∃ a, l = .quoted a := by
  simp only [argumentWords, List.mem_cons, List.mem_flatMap, List.not_mem_nil, or_false] at h
  rcases h with rfl | ⟨a, -, rfl | rfl⟩
  · exact .inr ⟨first, rfl⟩
  · exact .inl rfl
  · exact .inr ⟨a, rfl⟩

/-- The words of a version set are its ranges. -/
lemma mem_rangeWords {ranges : List (String × Version.Range)} {l : Lexeme}
    (h : l ∈ rangeWords ranges) : ∃ text r, l = .range text r := by
  obtain ⟨r, -, rfl⟩ := List.mem_map.mp h
  exact ⟨r.1, r.2, rfl⟩

/-- The expression that a name between braces stands for. -/
def braced (name : String) : Expr :=
  match Platform.ofName? name with
  | some fact => .platform fact
  | none => .reference name

/-- What the operands of a comparison are to bind like. -/
def operandStrength (op : CompareOp) : Strength :=
  if op.isEquality then .ordering else .primary

/-! ### Expressions -/

/-- The words derive the expression at a place that demands the strength. -/
inductive Derives (inChoice : Bool) : Nat → Strength → List Lexeme → Expr → Prop
  | name {levels : Nat} {name : String} : Probe.ofName? name = none →
    Derives inChoice levels .primary [.name name] (.package name none [])
  | features {levels : Nat} {name : String} (first : String) (others : List String) :
    Probe.ofName? name = none →
    Derives inChoice levels .primary
      (.name name :: .openFeatures :: (featureWords first others ++ [.mark .closeParen]))
      (.package name none (first :: others))
  | probe {levels : Nat} {name : String} {kind : Probe} (first : String) (others : List String) :
    Probe.ofName? name = some kind →
    Derives inChoice levels .primary
      (.name name :: .mark .openParen :: (argumentWords first others ++ [.mark .closeParen]))
      (.probe kind (first :: others))
  | braces {levels : Nat} (name : String) :
    Derives inChoice levels .primary [.mark .openBrace, .name name, .mark .closeBrace] (braced name)
  | text {levels : Nat} (value : String) :
    Derives inChoice levels .primary [.quoted value] (.text value)
  | version {levels : Nat} (value : Version) :
    Derives inChoice levels .primary [.version value] (.version value)
  | yes {levels : Nat} : Derives inChoice levels .primary [.keyword .yes] (.bool true)
  | no {levels : Nat} : Derives inChoice levels .primary [.keyword .no] (.bool false)
  | parens {levels : Nat} {words : List Lexeme} {e : Expr} :
    Derives inChoice levels .logical words e →
    Derives inChoice (levels + 1) .primary (.mark .openParen :: (words ++ [.mark .closeParen])) e
  | lift {levels : Nat} {strength stronger : Strength} {words : List Lexeme} {e : Expr} :
    strength.rank + 1 = stronger.rank → Derives inChoice levels stronger words e →
    Derives inChoice levels strength words e
  | compare {levels : Nat} {left right : List Lexeme} {lhs rhs : Expr} (op : CompareOp) :
    Derives inChoice levels (operandStrength op) left lhs →
    Derives inChoice levels (operandStrength op) right rhs →
    Derives inChoice levels (.ofCompare op) (left ++ .compare op :: right)
      (.comparison op lhs rhs)
  | within {levels : Nat} {words : List Lexeme} {e : Expr}
    {ranges : List (String × Version.Range)} :
    Derives inChoice levels .equality words e → ranges ≠ [] →
    (∀ r ∈ ranges, r.2.isEmpty = false) →
    Derives inChoice levels .within
      (words ++ .keyword .membership :: .openSet :: (rangeWords ranges ++ [.closeSet]))
      (e.membership ⟨ranges.map Prod.snd⟩)
  | tagged {levels : Nat} {words : List Lexeme} {e : Expr} (tag : String) : inChoice = true →
    Derives inChoice levels .within words e →
    Derives inChoice levels .tagged (words ++ [.keyword .tagging, .mark .colon, .name tag])
      (.tagged e tag)
  | logical {levels : Nat} {left right : List Lexeme} {lhs rhs : Expr} (op : LogicalOp) :
    Derives inChoice levels .logical left lhs → Derives inChoice levels .tagged right rhs →
    Derives inChoice levels .logical (left ++ .logical op :: right) (.logical op lhs rhs)

namespace Derives

variable {inChoice : Bool} {levels : Nat} {strength : Strength} {words : List Lexeme} {e : Expr}

/-- An expression that binds more strongly than demanded is in its place. -/
theorem weaken {weaker : Strength} (hle : weaker.rank ≤ strength.rank)
    (h : Derives inChoice levels strength words e) : Derives inChoice levels weaker words e := by
  obtain ⟨steps, hsteps⟩ := Nat.exists_eq_add_of_le hle
  induction steps generalizing weaker with
  | zero =>
    obtain rfl : strength = weaker := Strength.rank_injective (by omega)
    exact h
  | succ steps ih =>
    obtain ⟨next, hnext⟩ : ∃ next : Strength, weaker.rank + 1 = next.rank :=
      weaker.exists_next (t := strength) (by omega)
    exact .lift hnext (ih (by omega) (by omega))

/-- The first word of an expression is one that an expression can start with. -/
theorem startsExpr (h : Derives inChoice levels strength words e) :
    ∃ l rest, words = l :: rest ∧ l.startsExpr = true := by
  induction h with
  | lift _ _ ih => exact ih
  | compare op _ _ ihl _ | logical op _ _ ihl _ =>
    obtain ⟨l, rest, rfl, hl⟩ := ihl
    exact ⟨l, _, rfl, hl⟩
  | within _ _ _ ih | tagged tag _ _ ih =>
    obtain ⟨l, rest, rfl, hl⟩ := ih
    exact ⟨l, _, rfl, hl⟩
  | _ => exact ⟨_, _, rfl, rfl⟩

/-- Only the body of a choice holds tags. -/
theorem tags_eq_nil (h : Derives inChoice levels strength words e) (hchoice : inChoice = false) :
    e.tags = [] := by
  induction h with
  | parens _ ih => exact ih
  | lift _ _ ih => exact ih
  | compare op _ _ ihl ihr => rw [Expr.tags_comparison, ihl, ihr, List.append_nil]
  | within _ _ _ ih => rw [Expr.tags_membership, ih]
  | tagged tag htrue _ _ => rw [hchoice] at htrue; cases htrue
  | logical op _ _ ihl ihr => rw [Expr.tags_logical, ihl, ihr, List.append_nil]
  | braces name => unfold braced; split <;> rfl
  | _ => rfl

end Derives

/-! ### Programs -/

/-- The tokens derive the definitions. A definition remembers the line of its keyword. -/
inductive DerivesDefinitions : List Token → List Definition → Prop
  | nil : DerivesDefinitions [] []
  | cons {kind : DefinitionKind} {keyword : Token} {taken rest : List Token} {name : String}
    {words : List Lexeme} {body : Expr} {definitions : List Definition} :
    Parser.announced? (some keyword.lexeme) = some kind →
    taken.map Token.lexeme = .name name :: .mark .assign :: (words ++ [.mark .semicolon]) →
    Derives (kind == .choice) maxNesting .logical words body →
    DerivesDefinitions rest definitions →
    DerivesDefinitions (keyword :: (taken ++ rest))
      (⟨kind, name, body, keyword.start.line⟩ :: definitions)

/-- The words derive the master expression, if there is one. -/
inductive DerivesMaster : List Lexeme → Option Expr → Prop
  | none : DerivesMaster [] none
  | plain {words : List Lexeme} {e : Expr} : Derives false maxNesting .logical words e →
    DerivesMaster words (some e)
  | closed {words : List Lexeme} {e : Expr} : Derives false maxNesting .logical words e →
    DerivesMaster (words ++ [.mark .semicolon]) (some e)

/-- The tokens derive the script: its definitions, then its master expression. No tag is used
twice. -/
def DerivesScript (tokens : List Token) (s : Script) : Prop :=
  ∃ front back, tokens = front ++ back ∧ DerivesDefinitions front s.definitions ∧
    DerivesMaster (back.map Token.lexeme) s.master ∧
    (s.definitions.flatMap fun d => d.body.tags).Nodup

end Grammar

end Requirements
