import Mathlib.Tactic.Lemma
import Requirements.Expr.Printer
import Requirements.Proofs.Expr.Prune
import Requirements.Proofs.Version.Order

/-!
# Respelled expressions

A range whose bounds are equal as versions is written as its low bound alone. What is read back from
the text of an expression is therefore the expression *respelled*: in such a range the low bound has
taken the place of the high one. Nothing else changes, and respelling is seen neither in a text nor
in the versions that a range covers.
-/

namespace Requirements

namespace Version

namespace Range

/-- The range that is read back from the text of a range. -/
def respell (r : Range) : Range :=
  match r.low, r.high with
  | some low, some high => if low.same high then ⟨some low, some low, r.negated⟩ else r
  | _, _ => r

/-- A range is respelled in its high bound only, by a low bound that is the same version. -/
theorem respell_cases (r : Range) : r.respell = r ∨
    ∃ low high, low.same high = true ∧ r = ⟨some low, some high, r.negated⟩ ∧
      r.respell = ⟨some low, some low, r.negated⟩ := by
  obtain ⟨low, high, negated⟩ := r
  unfold respell
  split
  · rename_i l h hl hh
    cases hl
    cases hh
    split
    · rename_i hsame
      exact .inr ⟨l, h, hsame, rfl, rfl⟩
    · exact .inl rfl
  · exact .inl rfl

/-- A range read back from its text is negated if the range is. -/
@[simp] lemma negated_respell (r : Range) : r.respell.negated = r.negated := by
  rcases r.respell_cases with h | ⟨low, high, -, -, h⟩
  · rw [h]
  · rw [h]

/-- A range read back from its text covers the same versions. -/
@[simp] lemma covers_respell (r : Range) : r.respell.covers = r.covers := by
  rcases r.respell_cases with h | ⟨low, high, hsame, hr, h⟩
  · rw [h]
  · funext v
    rw [h, hr]
    simp [covers, before_eq_of_same hsame]

/-- A range read back from its text is empty if the range is. -/
@[simp] lemma isEmpty_respell (r : Range) : r.respell.isEmpty = r.isEmpty := by
  rcases r.respell_cases with h | ⟨low, high, hsame, hr, h⟩
  · rw [h]
  · rw [h, hr]
    simp [isEmpty, before_eq_of_same hsame]

/-- A range read back from its text has this text. -/
@[simp] lemma toText_respell (r : Range) : r.respell.toText = r.toText := by
  rcases r.respell_cases with h | ⟨low, high, hsame, hr, h⟩
  · rw [h]
  · rw [h, hr]
    simp [toText, boundsText, hsame]

/-- A range read back from its text has the same canonical form. -/
@[simp] lemma canonical_respell (r : Range) : r.respell.canonical = r.canonical := by
  rcases r.respell_cases with h | ⟨low, high, hsame, hr, h⟩
  · rw [h]
  · rw [h, hr]
    simp [canonical, canonical_eq_of_same hsame]

end Range

namespace RangeSet

/-- The set with every range respelled. -/
def respell (s : RangeSet) : RangeSet :=
  ⟨s.ranges.map Range.respell⟩

/-- A respelled set accepts the same versions. -/
@[simp] lemma accepts_respell (s : RangeSet) : s.respell.accepts = s.accepts := by
  funext v
  simp [accepts, respell, List.foldl_map]

/-- A respelled set has the same text. -/
@[simp] lemma toText_respell (s : RangeSet) : s.respell.toText = s.toText := by
  simp [toText, respell, Function.comp_def]

/-- A respelled set has the same canonical form. -/
@[simp] lemma canonical_respell (s : RangeSet) : s.respell.canonical = s.canonical := by
  simp [canonical, respell, Function.comp_def]

end RangeSet

end Version

namespace Constraint

/-- The condition with its version set respelled. -/
def respell : Constraint → Constraint
  | compare op w => compare op w
  | within set => within set.respell

/-- A respelled condition accepts the same versions. -/
@[simp] lemma accepts_respell (c : Constraint) : c.respell.accepts = c.accepts := by
  cases c with
  | compare op w => rfl
  | within set => exact set.accepts_respell

/-- A respelled condition is printed the same. -/
@[simp] lemma canonical_respell (c : Constraint) : c.respell.canonical = c.canonical := by
  cases c with
  | compare op w => rfl
  | within set => simp [respell, canonical]

end Constraint

namespace Expr

/-- The expression with every version set respelled. -/
def respell : Expr → Expr
  | package name constraint features => package name (constraint.map Constraint.respell) features
  | compare op lhs rhs => compare op lhs.respell rhs.respell
  | within operand set => within operand.respell set.respell
  | tagged operand tag => tagged operand.respell tag
  | logical op lhs rhs => logical op lhs.respell rhs.respell
  | e => e

/-! ### Texts -/

/-- The condition behind a name is printed the same. -/
@[simp] lemma constraintText_respell (c : Option Constraint) :
    constraintText (c.map Constraint.respell) = constraintText c := by
  rcases c with _ | ⟨op, w⟩ | set
  · rfl
  · rfl
  · simp [constraintText, Constraint.respell]

/-- Respelling changes no operator, so parentheses are needed in the same places. -/
@[simp] lemma strength_respell (e : Expr) : e.respell.strength = e.strength := by
  cases e with
  | package name constraint features =>
    rcases constraint with _ | ⟨op, w⟩ | set
    · rfl
    · rfl
    · rfl
  | _ => rfl

/-- A respelled expression has the same text. -/
@[simp] theorem format_respell (e : Expr) : e.respell.format = e.format := by
  induction e with
  | package name constraint features => simp [respell, format]
  | compare op lhs rhs ihl ihr => simp [respell, format, ihl, ihr]
  | within operand set ih => simp [respell, format, ih]
  | tagged operand tag ih => simp [respell, format, ih]
  | logical op lhs rhs ihl ihr => simp [respell, format, ihl, ihr]
  | _ => rfl

/-! ### Structure -/

/-- A respelled expression is printed the same. -/
@[simp] lemma canonical_respell (e : Expr) : e.respell.canonical = e.canonical := by
  induction e with
  | package name constraint features => simp [respell, canonical, Function.comp_def]
  | compare op lhs rhs ihl ihr => simp [respell, canonical, ihl, ihr]
  | within operand set ih => simp [respell, canonical, ih]
  | tagged operand tag ih => simp [respell, canonical, ih]
  | logical op lhs rhs ihl ihr => simp [respell, canonical, ihl, ihr]
  | _ => rfl

/-- The nodes are respelled one by one. -/
@[simp] lemma nodes_respell (e : Expr) : e.respell.nodes = e.nodes.map respell := by
  induction e with
  | compare op lhs rhs ihl ihr => simp [respell, ihl, ihr]
  | within operand set ih => simp [respell, ih]
  | tagged operand tag ih => simp [respell, ih]
  | logical op lhs rhs ihl ihr => simp [respell, ihl, ihr]
  | _ => rfl

/-- Tags are not respelled. -/
@[simp] lemma tags_respell (e : Expr) : e.respell.tags = e.tags := by
  have h : tag? ∘ respell = tag? := by
    funext e
    cases e <;> rfl
  rw [tags, nodes_respell, List.filterMap_map, h, tags]

/-- References are not respelled. -/
@[simp] lemma references_respell (e : Expr) : e.respell.references = e.references := by
  have h : referenceName? ∘ respell = referenceName? := by
    funext e
    cases e <;> rfl
  rw [references, nodes_respell, List.filterMap_map, h, references]

/-- Pruning strikes out the same parts. -/
theorem prune_respell (options : List String) (e : Expr) :
    e.respell.prune options = (e.prune options).map respell := by
  induction e with
  | tagged operand tag ih =>
    rw [respell, prune, prune]
    split
    · rw [ih]
      simp [Function.comp_def, respell]
    · rfl
  | logical op lhs rhs ihl ihr =>
    rw [respell, prune, prune, ihl, ihr]
    cases lhs.prune options <;> cases rhs.prune options <;> rfl
  | compare op lhs rhs ihl ihr =>
    rw [respell, prune, prune, ihl, ihr]
    cases lhs.prune options <;> cases rhs.prune options <;> rfl
  | within operand set ih =>
    rw [respell, prune, prune, ih]
    simp [Function.comp_def, respell]
  | _ => rfl

/-- Folding sees no version set. -/
theorem comparison_respell (op : CompareOp) (lhs rhs : Expr) :
    (comparison op lhs rhs).respell = comparison op lhs.respell rhs.respell := by
  cases lhs with
  | package name constraint features =>
    cases constraint with
    | none => cases rhs <;> rfl
    | some c => rfl
  | version v =>
    cases rhs with
    | package name constraint features => cases constraint <;> rfl
    | _ => rfl
  | _ => rfl

/-- A set test is folded into the name of a module, or not, as before. -/
lemma membership_respell (operand : Expr) (set : Version.RangeSet) :
    (membership operand set).respell = membership operand.respell set.respell := by
  cases operand with
  | package name constraint features => cases constraint <;> rfl
  | _ => rfl

end Expr

end Requirements
