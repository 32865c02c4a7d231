import Requirements.Expr.Operator
import Requirements.Text.NameSet
import Requirements.Version.Range

/-!
# Requirement expressions

An expression states a requirement on a system: that a module is installed, perhaps in certain
versions and with certain features, that a header file, a library or a program is present, that the
platform is of some kind, or a combination of these. Expressions hold structure only; what they
mean in an environment is the subject of `Requirements.Evaluation`.
-/

namespace Requirements

/-- What a probe looks for on the system. -/
inductive Probe where
  | header
  | library
  | program
deriving DecidableEq, Repr

namespace Probe

/-- The function name of a probe. -/
def name : Probe → String
  | header => "HAS_INCLUDE"
  | library => "HAS_LIB"
  | program => "HAS_PROGRAM"

/-- The probe that a function name stands for. -/
def ofName? (s : String) : Option Probe :=
  [header, library, program].find? fun p => p.name == s

end Probe

/-- The facts about the platform that an expression may mention. -/
inductive Platform where
  | osname
  | ithreads
deriving DecidableEq, Repr

namespace Platform

/-- The name of a fact, reserved among the names of definitions. -/
def name : Platform → String
  | osname => "OSNAME"
  | ithreads => "ITHREADS"

/-- The fact that a name stands for. -/
def ofName? (s : String) : Option Platform :=
  [osname, ithreads].find? fun p => p.name == s

end Platform

/-- A condition on the version of a module. -/
inductive Constraint where
  | compare (op : CompareOp) (version : Version)
  | within (set : Version.RangeSet)
deriving DecidableEq, Repr

namespace Constraint

/-- Whether a version satisfies the condition. -/
def accepts : Constraint → Version → Bool
  | compare op w, v => op.holds (v.order w)
  | within set, v => set.accepts v

/-- The condition with all its versions in canonical form. -/
def canonical : Constraint → Constraint
  | compare op w => compare op w.canonical
  | within set => within set.canonical

end Constraint

/-- A requirement expression. -/
inductive Expr where
  | bool (value : Bool)
  | text (value : String)
  | version (value : Version)
  | package (name : String) (constraint : Option Constraint) (features : List String)
  | platform (fact : Platform)
  | reference (name : String)
  | probe (kind : Probe) (args : List String)
  | compare (op : CompareOp) (lhs rhs : Expr)
  | within (operand : Expr) (set : Version.RangeSet)
  | tagged (operand : Expr) (tag : String)
  | logical (op : LogicalOp) (lhs rhs : Expr)
deriving DecidableEq, Repr

namespace Expr

/-- Puts the expression and everything below it, parents before children and left before right, in
front of `rest`. -/
def nodesOnto : Expr → List Expr → List Expr
  | compare op lhs rhs, rest => compare op lhs rhs :: lhs.nodesOnto (rhs.nodesOnto rest)
  | logical op lhs rhs, rest => logical op lhs rhs :: lhs.nodesOnto (rhs.nodesOnto rest)
  | within operand set, rest => within operand set :: operand.nodesOnto rest
  | tagged operand tag, rest => tagged operand tag :: operand.nodesOnto rest
  | e, rest => e :: rest

/-- The expression and everything below it, parents before children and left before right. -/
def nodes (e : Expr) : List Expr :=
  e.nodesOnto []

/-- The name that a reference refers to. -/
def referenceName? : Expr → Option String
  | reference name => some name
  | _ => none

/-- The tag of a tagged expression. -/
def tag? : Expr → Option String
  | tagged _ tag => some tag
  | _ => none

/-- The names of the definitions that an expression refers to. -/
def references (e : Expr) : List String :=
  Text.nameSet (e.nodes.filterMap referenceName?)

/-- The tags of an expression, in the order in which they are declared. -/
def tags (e : Expr) : List String :=
  e.nodes.filterMap tag?

/-- The expression with all its versions in canonical form. Two expressions that differ in the
texts of equal versions only have the same canonical form. -/
def canonical : Expr → Expr
  | version v => version v.canonical
  | package name constraint features => package name (constraint.map Constraint.canonical) features
  | compare op lhs rhs => compare op lhs.canonical rhs.canonical
  | within operand set => within operand.canonical set.canonical
  | tagged operand tag => tagged operand.canonical tag
  | logical op lhs rhs => logical op lhs.canonical rhs.canonical
  | e => e

/-! ### Folding

A comparison of a bare module with a version literal, and a set test over a bare module, become a
condition on the module itself. -/

/-- The comparison of two expressions. -/
def comparison (op : CompareOp) (lhs rhs : Expr) : Expr :=
  match lhs, rhs with
  | package name none features, version v => package name (some (.compare op v)) features
  | version v, package name none features => package name (some (.compare op.swap v)) features
  | lhs, rhs => compare op lhs rhs

/-- The test whether an expression has a version in a set. -/
def membership (operand : Expr) (set : Version.RangeSet) : Expr :=
  match operand with
  | package name none features => package name (some (.within set)) features
  | operand => within operand set

end Expr

end Requirements
