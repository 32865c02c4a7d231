import Requirements.Expr.Basic

/-!
# Alternatives of a choice

The body of a choice joins alternatives by one connective, each alternative perhaps with a tag. The
connective is read off the left edge of the body; the alternatives are the operands that it joins.
-/

namespace Requirements

namespace Expr

/-- The connectives along the left edge of an expression. -/
def spine : Expr → List LogicalOp
  | logical op lhs _ => op :: lhs.spine
  | _ => []

/-- The connective that joins the top-level alternatives, if it is the same throughout. -/
def combinator? (e : Expr) : Option LogicalOp :=
  match e.spine with
  | [] => none
  | op :: ops => if ops.all (· == op) then some op else none

/-- The operands that `op` joins, put in front of `rest`. -/
def operandsOnto (op : LogicalOp) : Expr → List Expr → List Expr
  | logical o lhs rhs, rest =>
    if o = op then lhs.operandsOnto op (rhs.operandsOnto op rest)
    else logical o lhs rhs :: rest
  | e, rest => e :: rest

/-- The operands that `op` joins, at any depth, from left to right. -/
def operands (op : LogicalOp) (e : Expr) : List Expr :=
  e.operandsOnto op []

/-- One alternative of a choice. -/
structure Alternative where
  tag : Option String
  body : Expr
deriving DecidableEq, Repr

/-- An operand as an alternative, its tag taken off. -/
def toAlternative : Expr → Alternative
  | tagged operand tag => ⟨some tag, operand⟩
  | e => ⟨none, e⟩

/-- The top-level alternatives of a choice body. A body with different connectives at the top is a
single alternative. -/
def alternatives (e : Expr) : List Alternative :=
  match e, e.combinator? with
  | e, some op => (e.operands op).map toAlternative
  | logical op lhs rhs, none => [⟨none, logical op lhs rhs⟩]
  | e, none => [e.toAlternative]

end Expr

end Requirements
