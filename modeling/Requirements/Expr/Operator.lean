/-!
# Operators

The operators that join requirements and the operators that compare their values.
-/

namespace Requirements

/-- The connectives. They bind equally strongly and group to the left. -/
inductive LogicalOp where
  | and
  | or
  | xor
deriving DecidableEq, Repr

namespace LogicalOp

/-- The connective as it is written. -/
def symbol : LogicalOp → String
  | and => "&&"
  | or => "||"
  | xor => "^^"

/-- The truth value of a connective from those of its operands. -/
def apply : LogicalOp → Bool → Bool → Bool
  | and, a, b => a && b
  | or, a, b => a || b
  | xor, a, b => a != b

/-- The value of the whole when the left operand decides it alone. -/
def decided? : LogicalOp → Bool → Option Bool
  | and, false => some false
  | or, true => some true
  | _, _ => none

/-- A deciding left operand gives the value that any right operand would give. -/
theorem apply_of_decided? {op : LogicalOp} {a b v : Bool} (h : op.decided? a = some v) :
    op.apply a b = v := by
  cases op <;> cases a <;> simp_all [decided?, apply]

end LogicalOp

/-- The comparison operators. -/
inductive CompareOp where
  | lt
  | le
  | gt
  | ge
  | eq
  | ne
deriving DecidableEq, Repr

namespace CompareOp

/-- The operator as it is written. -/
def symbol : CompareOp → String
  | lt => "<"
  | le => "<="
  | gt => ">"
  | ge => ">="
  | eq => "=="
  | ne => "!="

/-- All operators. -/
def all : List CompareOp := [lt, le, gt, ge, eq, ne]

/-- The operator that a text writes. -/
def ofSymbol? (s : String) : Option CompareOp :=
  all.find? fun op => op.symbol == s

/-- Whether the operator asks for equality or difference, which bind less strongly than the
orderings. -/
def isEquality : CompareOp → Bool
  | eq | ne => true
  | _ => false

/-- The operator that says the same of the operands in exchanged places. -/
def swap : CompareOp → CompareOp
  | lt => gt
  | le => ge
  | gt => lt
  | ge => le
  | eq => eq
  | ne => ne

/-- Mirroring an operator twice gives it back. -/
@[simp] theorem swap_swap (op : CompareOp) : op.swap.swap = op := by
  cases op <;> rfl

/-- Whether operands in the given order satisfy the operator. -/
def holds : CompareOp → Ordering → Bool
  | lt, o => o == .lt
  | le, o => o != .gt
  | gt, o => o == .gt
  | ge, o => o != .lt
  | eq, o => o == .eq
  | ne, o => o != .eq

/-- Exchanging the operands exchanges the operator. -/
@[simp] theorem holds_swap (op : CompareOp) (o : Ordering) :
    op.swap.holds o = op.holds o.swap := by
  cases op <;> cases o <;> rfl

end CompareOp

end Requirements
