import Requirements.Evaluation.Basic
import Requirements.Report.Basic

/-!
# From traces to reports

A report lists the failures that nothing below them explains: modules that are absent or not as
required, probes that found nothing, false constants and platform facts, comparisons that do not
hold although their operands are there, `^^` with both operands true, and choices of which no
alternative is selected. A definition is reported under its first reference.
-/

namespace Requirements

/-- What is wrong with a part of a program. -/
structure Failure where
  kind : FailureKind
  detail : String
deriving DecidableEq, Repr

namespace Trace

/-- The names that were looked for and not found, each once. -/
def missing (found : List (String × Bool)) : List String :=
  ((found.filter fun f => !f.2).map Prod.fst).eraseDups

/-- The failure of a module that is absent or not as required. -/
def packageFailure (name : String) (constraint : Option Constraint) (features : List String) :
    Option Finding → Failure
  | none => ⟨.missingModule, "Module " ++ name ++ " is not installed"⟩
  | some f =>
    if f.accepted = some false then
      match f.declared with
      | none => ⟨.versionMismatch, name ++ " declares no version"⟩
      | some v =>
        ⟨.versionMismatch, name ++ " " ++ v ++ " does not satisfy " ++
          (Expr.package name constraint features).format⟩
    else
      ⟨.missingFeature, name ++ " lacks feature(s): " ++ ", ".intercalate (missing f.features)⟩

/-- The kind of failure of a probe. -/
def probeFailureKind : Probe → FailureKind
  | .header => .missingInclude
  | .library => .missingLib
  | .program => .missingProgram

/-- A truth value as a message shows it. -/
def boolText (b : Bool) : String :=
  if b then "True" else "False"

/-- What the platform was found to be, if the trace records a platform fact. -/
def platformText? : Trace → Option String
  | osname s => some (Expr.braced Platform.osname.name ++ " is " ++ Text.quoted s)
  | ithreads b => some (Expr.braced Platform.ithreads.name ++ " is " ++ boolText b)
  | _ => none

/-- The name and version of a module, if the trace records one with a version. -/
def packageVersionText? : Trace → Option String
  | package name _ _ (some f) => f.version.map fun v => name ++ " " ++ v.toText
  | _ => none

/-- The name of a module, if the trace records one. -/
def packageName? : Trace → Option String
  | package name _ _ _ => some name
  | _ => none

/-- Whether an expression mentions the platform. -/
def mentionsPlatform (e : Expr) : Bool :=
  e.nodes.any fun n => match n with
    | .platform _ => true
    | _ => false

/-- Whether an expression mentions a module or a definition. -/
def mentionsPackage (e : Expr) : Bool :=
  e.nodes.any fun n => match n with
    | .package _ _ _ | .reference _ => true
    | _ => false

/-- The failure of a comparison or set test with the given text and operands, none of which
failed. -/
def comparisonFailure (text : String) (operands : List Trace) : Failure :=
  let visited := operands.flatMap nodes
  let statement := text ++ " is false"
  match ((operands.filter unversioned).flatMap nodes).filterMap packageName? with
  | name :: _ => ⟨.versionMismatch, statement ++ " (" ++ name ++ " declares no version)"⟩
  | [] =>
    if operands.any fun t => mentionsPlatform t.expr then
      ⟨.platformMismatch,
        statement ++ " (" ++ ", ".intercalate (visited.filterMap platformText?) ++ ")"⟩
    else if operands.any fun t => mentionsPackage t.expr then
      let versions := visited.filterMap packageVersionText?
      ⟨.versionMismatch,
        if versions.isEmpty then statement
        else statement ++ " (" ++ ", ".intercalate versions ++ ")"⟩
    else ⟨.constant, statement⟩

/-- The failure of a comparison or set test. An operand that failed is reported in its own place
instead. -/
def comparisonFailure? (text : String) (operands : List Trace) : Option Failure :=
  if operands.any failed then none else some (comparisonFailure text operands)

/-- The failure that a trace stands for by itself, given that it records something false. -/
def ownFailure? : Trace → Option Failure
  | package name constraint features finding =>
    some (packageFailure name constraint features finding)
  | probe kind _ found =>
    some ⟨probeFailureKind kind, "Not found: " ++ ", ".intercalate (missing found)⟩
  | osname s => (osname s).platformText?.map fun text => ⟨.platformMismatch, text⟩
  | ithreads b => (ithreads b).platformText?.map fun text => ⟨.platformMismatch, text⟩
  | unselected name =>
    some ⟨.noAlternative, "No alternative of choice '" ++ name ++ "' selected"⟩
  | bool b => some ⟨.constant, "Constant " ++ (Expr.bool b).format⟩
  | text s => some ⟨.constant, "Constant " ++ (Expr.text s).format⟩
  | logical .xor lhs rhs _ =>
    if lhs.truthy && rhs.truthy then
      some ⟨.exclusiveConflict, "Both sides of '^^' hold"⟩
    else none
  | compare op lhs rhs truthy =>
    comparisonFailure? (compare op lhs rhs truthy).label [lhs, rhs]
  | within operand set tested truthy =>
    comparisonFailure? (within operand set tested truthy).label [operand]
  | _ => none

/-- The failure that a trace stands for, if it records something false that is to be reported in
its place. -/
def failure? (t : Trace) : Option Failure :=
  if t.truthy then none else t.ownFailure?

/-- Whether a trace, as an operand of a comparison or set test, is left to the comparison to
report. -/
def isPlain : Trace → Bool
  | bool _ | text _ | osname _ | ithreads _ => true
  | _ => false

/-- The entry of a trace itself. The labels of the parts around it are given from the inside to the
outside. -/
def ownEntries (above : List String) (shadowed operand : Bool) (t : Trace) : List Entry :=
  if operand && t.isPlain then []
  else
    match t.failure? with
    | none => []
    | some f =>
      [{ path := (t.label :: above).reverse, kind := f.kind, actionable := f.kind.isActionable,
         detail := f.detail, shadowed }]

/-- The label of a connective with the number of the operand that is looked at. -/
def operandLabel (label : String) (index : Nat) : String :=
  label ++ "[" ++ toString index ++ "]"

/-- The entries of a trace and of everything below it. -/
def entriesUnder (above : List String) (shadowed operand : Bool) : Trace → List Entry
  | reference name isChoice cached body =>
    let t := reference name isChoice cached body
    t.ownEntries above shadowed operand ++
      if cached then []
      else body.entriesUnder (t.label :: above) (shadowed || t.truthy) false
  | tagged inner tag =>
    let t := tagged inner tag
    t.ownEntries above shadowed operand ++
      inner.entriesUnder (t.label :: above) (shadowed || t.truthy) false
  | compare op lhs rhs truthy =>
    let t := compare op lhs rhs truthy
    t.ownEntries above shadowed operand ++
      (lhs.entriesUnder (t.label :: above) (shadowed || truthy) true ++
        rhs.entriesUnder (t.label :: above) (shadowed || truthy) true)
  | within inner set tested truthy =>
    let t := within inner set tested truthy
    t.ownEntries above shadowed operand ++
      inner.entriesUnder (t.label :: above) (shadowed || truthy) true
  | shortCircuit op lhs _ truthy =>
    lhs.entriesUnder (operandLabel op.symbol 0 :: above) (shadowed || truthy) false
  | logical op lhs rhs truthy =>
    let t := logical op lhs rhs truthy
    t.ownEntries above shadowed operand ++
      (lhs.entriesUnder (operandLabel op.symbol 0 :: above) (shadowed || truthy) false ++
        rhs.entriesUnder (operandLabel op.symbol 1 :: above) (shadowed || truthy) false)
  | t => t.ownEntries above shadowed operand

/-- The entries of a trace, in the order of the visit. -/
def entries (t : Trace) : List Entry :=
  t.entriesUnder [] false false

/-- The report on an evaluation under the given options. -/
def report (options : List String) (t : Trace) : Report where
  result := t.truthy
  entries := t.entries
  options := options

end Trace

namespace Selection

/-- Evaluates a program and reports on it. -/
def check (s : Selection) (env : Environment) (settings : Settings) : Except EvalError Report :=
  (s.evaluate env settings).result.map (Trace.report s.options)

end Selection

end Requirements
