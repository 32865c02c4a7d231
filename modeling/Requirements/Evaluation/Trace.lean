import Requirements.Environment.Basic
import Requirements.Expr.Printer

/-!
# Traces

A trace records an evaluation: every part of the program that was visited, with what was found
there. A trace has a shape for each way in which a part can be visited. The right operand of `&&`
or `||` that was passed over is kept as an expression, and a reference whose definition was
evaluated before keeps the trace of that evaluation.
-/

namespace Requirements

/-- What an expression stands for: a truth value, and perhaps a version or a text that a comparison
can use. -/
structure Value where
  truthy : Bool
  version : Option Version := none
  text : Option String := none
deriving DecidableEq, Repr

namespace Value

/-- A bare truth value. -/
def ofBool (b : Bool) : Value := { truthy := b }

/-- A text, which holds unless it is empty. -/
def ofText (s : String) : Value := { truthy := !s.isEmpty, text := some s }

end Value

/-- What was found of an installed module: the version it declares, as written and as read, whether
the version satisfies the condition, if there is one, and which of the features asked for it
has. -/
structure Finding where
  declared : Option String
  version : Option Version
  accepted : Option Bool
  features : List (String × Bool)
deriving DecidableEq, Repr

namespace Finding

/-- Whether the module is as required. -/
def truthy (f : Finding) : Bool :=
  f.accepted.all id && f.features.all Prod.snd

end Finding

/-- The record of an evaluation. -/
inductive Trace where
  | bool (value : Bool)
  | text (value : String)
  | version (value : Version)
  | osname (value : String)
  | ithreads (value : Bool)
  | package (name : String) (constraint : Option Constraint) (features : List String)
      (finding : Option Finding)
  | probe (kind : Probe) (args : List String) (found : List (String × Bool))
  | unselected (name : String)
  | reference (name : String) (isChoice cached : Bool) (body : Trace)
  | tagged (operand : Trace) (tag : String)
  | compare (op : CompareOp) (lhs rhs : Trace) (truthy : Bool)
  | within (operand : Trace) (set : Version.RangeSet) (tested : Option Version) (truthy : Bool)
  | shortCircuit (op : LogicalOp) (lhs : Trace) (skipped : Expr) (truthy : Bool)
  | logical (op : LogicalOp) (lhs rhs : Trace) (truthy : Bool)
deriving DecidableEq, Repr

namespace Trace

/-- The value of the part of the program that the trace records. -/
def value : Trace → Value
  | bool b => .ofBool b
  | text s => .ofText s
  | version v => { truthy := true, version := some v }
  | osname s => .ofText s
  | ithreads b => .ofBool b
  | package _ _ _ none => .ofBool false
  | package _ _ _ (some f) => { truthy := f.truthy, version := f.version }
  | probe _ _ found => .ofBool (found.all Prod.snd)
  | unselected _ => .ofBool false
  | reference _ _ _ body => body.value
  | tagged operand _ => operand.value
  | compare _ _ _ truthy => .ofBool truthy
  | within _ _ _ truthy => .ofBool truthy
  | shortCircuit _ _ _ truthy => .ofBool truthy
  | logical _ _ _ truthy => .ofBool truthy

/-- Whether the part of the program holds. -/
def truthy (t : Trace) : Bool :=
  t.value.truthy

/-- The part of the program that the trace records. -/
def expr : Trace → Expr
  | bool b => .bool b
  | text s => .text s
  | version v => .version v
  | osname _ => .platform .osname
  | ithreads _ => .platform .ithreads
  | package name constraint features _ => .package name constraint features
  | probe kind args _ => .probe kind args
  | unselected name => .reference name
  | reference name _ _ _ => .reference name
  | tagged operand tag => .tagged operand.expr tag
  | compare op lhs rhs _ => .compare op lhs.expr rhs.expr
  | within operand set _ _ => .within operand.expr set
  | shortCircuit op lhs skipped _ => .logical op lhs.expr skipped
  | logical op lhs rhs _ => .logical op lhs.expr rhs.expr

/-- The short name of the part of the program. -/
def label : Trace → String
  | shortCircuit op _ _ _ => op.symbol
  | logical op _ _ _ => op.symbol
  | tagged _ tag => "as :" ++ tag
  | t => t.expr.format

/-- The traces of the parts that were visited on the way, in order. -/
def children : Trace → List Trace
  | reference _ _ _ body => [body]
  | tagged operand _ => [operand]
  | compare _ lhs rhs _ => [lhs, rhs]
  | within operand _ _ _ => [operand]
  | shortCircuit _ lhs _ _ => [lhs]
  | logical _ lhs rhs _ => [lhs, rhs]
  | _ => []

/-- Whether an operand is a module that is absent or not as required, or stands for one by way of
references and tags. A comparison with such an operand does not hold. -/
def failed : Trace → Bool
  | package name constraint features finding => !(package name constraint features finding).truthy
  | unselected _ => true
  | reference _ _ _ body => body.failed
  | tagged operand _ => operand.failed
  | _ => false

/-- Whether an operand is a module that is as required but declares no version, or stands for one by
way of references and tags. -/
def unversioned : Trace → Bool
  | package _ _ _ (some f) => f.truthy && f.version.isNone
  | reference _ _ _ body => body.unversioned
  | tagged operand _ => operand.unversioned
  | _ => false

/-- Puts the trace and everything below it, parents before children and left before right, in front
of `rest`. -/
def nodesOnto : Trace → List Trace → List Trace
  | reference name isChoice cached body, rest =>
    reference name isChoice cached body :: body.nodesOnto rest
  | tagged operand tag, rest => tagged operand tag :: operand.nodesOnto rest
  | compare op lhs rhs truthy, rest =>
    compare op lhs rhs truthy :: lhs.nodesOnto (rhs.nodesOnto rest)
  | within operand set tested truthy, rest =>
    within operand set tested truthy :: operand.nodesOnto rest
  | shortCircuit op lhs skipped truthy, rest =>
    shortCircuit op lhs skipped truthy :: lhs.nodesOnto rest
  | logical op lhs rhs truthy, rest =>
    logical op lhs rhs truthy :: lhs.nodesOnto (rhs.nodesOnto rest)
  | t, rest => t :: rest

/-- The trace and everything below it, parents before children and left before right. -/
def nodes (t : Trace) : List Trace :=
  t.nodesOnto []

/-- Like `nodesOnto` with the depth of each trace, but without what lies below a reference whose
definition was evaluated before. -/
def outlineOnto (depth : Nat) : Trace → List (Nat × Trace) → List (Nat × Trace)
  | reference name isChoice cached body, rest =>
    (depth, reference name isChoice cached body) ::
      if cached then rest else body.outlineOnto (depth + 1) rest
  | tagged operand tag, rest =>
    (depth, tagged operand tag) :: operand.outlineOnto (depth + 1) rest
  | compare op lhs rhs truthy, rest =>
    (depth, compare op lhs rhs truthy) ::
      lhs.outlineOnto (depth + 1) (rhs.outlineOnto (depth + 1) rest)
  | within operand set tested truthy, rest =>
    (depth, within operand set tested truthy) :: operand.outlineOnto (depth + 1) rest
  | shortCircuit op lhs skipped truthy, rest =>
    (depth, shortCircuit op lhs skipped truthy) :: lhs.outlineOnto (depth + 1) rest
  | logical op lhs rhs truthy, rest =>
    (depth, logical op lhs rhs truthy) ::
      lhs.outlineOnto (depth + 1) (rhs.outlineOnto (depth + 1) rest)
  | t, rest => (depth, t) :: rest

/-- The traces in the order of the visit, each with its depth. What lies below a reference whose
definition was evaluated before is listed under the first reference only. -/
def outline (t : Trace) : List (Nat × Trace) :=
  t.outlineOnto 0 []

end Trace

end Requirements
