import Requirements.Expr.Basic

/-!
# Pruning

Selecting options strikes out of an expression every part whose tag is not selected.
-/

namespace Requirements

namespace Expr

/-- What is left of an expression when only the tags in `options` are selected: tagged parts with
another tag go, a connective that loses one operand gives way to the other, and a comparison or set
test that loses an operand goes with it. -/
def prune (options : List String) : Expr → Option Expr
  | tagged operand tag =>
    if options.contains tag then (operand.prune options).map (tagged · tag) else none
  | logical op lhs rhs =>
    match lhs.prune options, rhs.prune options with
    | some l, some r => some (logical op l r)
    | some l, none => some l
    | none, r => r
  | compare op lhs rhs =>
    match lhs.prune options, rhs.prune options with
    | some l, some r => some (compare op l r)
    | _, _ => none
  | within operand set => (operand.prune options).map (within · set)
  | e => some e

end Expr

end Requirements
