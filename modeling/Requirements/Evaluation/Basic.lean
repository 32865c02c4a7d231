import Requirements.Decimal.Shortest
import Requirements.Evaluation.Trace
import Requirements.Program.Selection
import Requirements.Settings.Basic
import Requirements.Version.Reader

/-!
# Evaluation

An expression is evaluated from left to right. `&&` and `||` pass over a right operand that cannot
change the outcome. A definition is evaluated at its first reference, and later references share the
result. Answers of the environment are kept for the same question if the settings say so.

A failure ends the evaluation: whether the requirement holds is then unknown, not false.
-/

namespace Requirements

/-- Which version could not be read. -/
inductive VersionUse where
  | declaration (module : String)
  | comparison
  | membership
deriving DecidableEq, Repr

namespace VersionUse

/-- The use in words. -/
def wording : VersionUse → String
  | declaration name => "version of " ++ name
  | comparison => "comparison operand"
  | membership => "set operand"

end VersionUse

/-- Why an evaluation has no outcome. -/
inductive EvalError where
  | failed (query : Query) (text : String)
  | timedOut (query : Query) (timeout : Option Float)
  | aborted (message : String)
  | malformedVersion (use : VersionUse) (text : String)
  | missingVersion
  | incomparable (op : CompareOp)
  | unresolved (name : String)
deriving Repr

namespace EvalError

/-- The error that a refused answer causes. -/
def ofRefusal (timeout : Option Float) (query : Query) : Refusal → EvalError
  | .failed text => failed query text
  | .timedOut => timedOut query timeout
  | .abort message => aborted message

/-- The question whose answer was refused. -/
def query? : EvalError → Option Query
  | failed q _ | timedOut q _ => some q
  | _ => none

/-- What is wrong, in words. -/
def message : EvalError → String
  | failed q text => q.text ++ " failed: " ++ text
  | timedOut q none => q.text ++ " timed out"
  | timedOut q (some seconds) =>
    q.text ++ " timed out after " ++ Decimal.shortestText seconds ++ "s"
  | aborted message => message
  | malformedVersion use text => "Malformed " ++ use.wording ++ ": " ++ Text.quoted text
  | missingVersion => "Set membership needs a version operand"
  | incomparable op => "Cannot apply '" ++ op.symbol ++ "' to these operands"
  | unresolved name => "Nothing is defined as '" ++ name ++ "'"

end EvalError

/-! ### Comparing values -/

namespace Value

/-- Reads the version that an operand needs. -/
def readVersion (use : VersionUse) (s : String) : Except EvalError Version :=
  match Version.ofText? s with
  | some v => .ok v
  | none => .error (.malformedVersion use s)

/-- The value as a text, for comparison with a text. -/
def asText (v : Value) : String :=
  match v.text, v.version with
  | some s, _ => s
  | none, some w => w.toText
  | none, none => if v.truthy then "1" else ""

/-- The version of an operand that is compared with a text. -/
def asVersion (v : Value) : Except EvalError Version :=
  match v.version with
  | some w => .ok w
  | none => readVersion .comparison (v.text.getD "")

/-- The order of two values under an operator. Two texts are ordered as texts. A text and another
value are equal if they have the same text, and ordered as versions. Otherwise versions are ordered,
and truth values can be equal or different. -/
def order (op : CompareOp) (a b : Value) : Except EvalError Ordering :=
  match a.text, b.text with
  | some s, some t => .ok (compare s t)
  | none, none =>
    match a.version, b.version with
    | some v, some w => .ok (v.order w)
    | none, none =>
      if op.isEquality then .ok (compare a.truthy.toNat b.truthy.toNat)
      else .error (.incomparable op)
    | _, _ => .error (.incomparable op)
  | _, _ =>
    if op.isEquality then .ok (compare a.asText b.asText)
    else do
      let v ← a.asVersion
      let w ← b.asVersion
      return v.order w

/-- The version of an operand of a set test. -/
def testedVersion (v : Value) : Except EvalError Version :=
  match v.version, v.text with
  | some w, _ => .ok w
  | none, some s => readVersion .membership s
  | none, none => .error .missingVersion

end Value

namespace Trace

/-- Whether a comparison cannot hold, whatever its operator. -/
def spoils (t : Trace) : Bool :=
  t.failed || t.unversioned

/-- Whether a comparison of two operands holds. -/
def compareHolds (op : CompareOp) (lhs rhs : Trace) : Except EvalError Bool :=
  if lhs.spoils || rhs.spoils then .ok false
  else (lhs.value.order op rhs.value).map op.holds

/-- The version that a set test tests, if its operand allows a test at all. -/
def testedVersion? (operand : Trace) : Except EvalError (Option Version) :=
  if operand.spoils then .ok none else operand.value.testedVersion.map some

end Trace

/-! ### Evaluating expressions -/

/-- An answer that was received. -/
structure Answered where
  query : Query
  answer : query.Answer

namespace Answered

/-- The answer that was received to a question. -/
def find? : List Answered → (q : Query) → Option q.Answer
  | [], _ => none
  | a :: rest, q => if h : a.query = q then some (h ▸ a.answer) else find? rest q

end Answered

/-- What an evaluation has gathered: the traces of the definitions evaluated so far, the answers to
use again, and the questions asked, the last one first. -/
structure Progress where
  results : List (String × Trace) := []
  answers : List Answered := []
  asked : List Query := []

/-- A step of an evaluation. -/
abbrev EvalM := ExceptT EvalError (StateM Progress)

namespace Evaluation

section

variable (env : Environment) (settings : Settings)

/-- Puts a question to the environment. -/
def askAnew (q : Query) : EvalM q.Answer := do
  modify fun p => { p with asked := q :: p.asked }
  match env.answer q with
  | .ok answer => return answer
  | .error refusal => throw (.ofRefusal settings.timeout q refusal)

/-- The answer to a question, which is asked at most once if answers are kept. -/
def ask (q : Query) : EvalM q.Answer := do
  if settings.memoize then
    match Answered.find? (← get).answers q with
    | some answer => return answer
    | none =>
      let answer ← askAnew env settings q
      modify fun p => { p with answers := ⟨q, answer⟩ :: p.answers }
      return answer
  else askAnew env settings q

/-- The version that an installed module declares, if it declares one. -/
def declaredVersion (name : String) (record : ModuleRecord) : Except EvalError (Option Version) :=
  match record.version with
  | none => .ok none
  | some s => (Value.readVersion (.declaration name) s).map some

/-- Asks which of the features a module has. -/
def askFeatures (name : String) (features : List String) : EvalM (List (String × Bool)) :=
  features.mapM fun feature => do return (feature, ← ask env settings (.feature name feature))

/-- Looks at an installed module. Its features are asked for only if its version is as
required. -/
def examine (name : String) (constraint : Option Constraint) (features : List String)
    (record : ModuleRecord) : EvalM Finding := do
  let version ← declaredVersion name record
  let accepted := constraint.map fun c => version.any c.accepts
  let found ← (if accepted.all id then askFeatures env settings name features else pure [])
  return { declared := record.version, version, accepted, features := found }

/-- Looks for a module. -/
def find (name : String) (constraint : Option Constraint) (features : List String) :
    EvalM (Option Finding) := do
  match ← ask env settings (.lookup name) with
  | none => return none
  | some record => return some (← examine env settings name constraint features record)

/-- Asks a probe about each of its arguments. -/
def askArguments (kind : Probe) (args : List String) : EvalM (List (String × Bool)) :=
  args.mapM fun arg => do return (arg, ← ask env settings (.probe kind arg))

/-- Evaluates an expression, whose references are followed by `follow`. -/
def evalWith (follow : String → EvalM Trace) : Expr → EvalM Trace
  | .bool b => return .bool b
  | .text s => return .text s
  | .version v => return .version v
  | .platform .osname => return .osname env.osname
  | .platform .ithreads => return .ithreads env.ithreads
  | .package name constraint features =>
    return .package name constraint features (← find env settings name constraint features)
  | .probe kind args => return .probe kind args (← askArguments env settings kind args)
  | .reference name => follow name
  | .tagged operand tag => do
    let inner ← evalWith follow operand
    return .tagged inner tag
  | .compare op lhs rhs => do
    let left ← evalWith follow lhs
    let right ← evalWith follow rhs
    let truthy ← left.compareHolds op right
    return .compare op left right truthy
  | .within operand set => do
    let inner ← evalWith follow operand
    let tested ← inner.testedVersion?
    return .within inner set tested (tested.any set.accepts)
  | .logical op lhs rhs => do
    let left ← evalWith follow lhs
    match op.decided? left.truthy with
    | some truthy => return .shortCircuit op left rhs truthy
    | none =>
      let right ← evalWith follow rhs
      return .logical op left right (op.apply left.truthy right.truthy)

/-- Goes on with the definition that a reference leads to: with its result, if it was evaluated
before, and else with what the options leave of its body. -/
def followBinding (follow : String → EvalM Trace) (name : String) (binding : Binding) :
    Option Trace → EvalM Trace
  | some body => return .reference name binding.isChoice true body
  | none =>
    match binding.body with
    | none => return .unselected name
    | some e => do
      let body ← evalWith env settings follow e
      modify fun p => { p with results := (name, body) :: p.results }
      return .reference name binding.isChoice false body

/-- Follows a reference, at most `levels` definitions deep. -/
def followWithin (s : Selection) : Nat → String → EvalM Trace
  | 0, name => throw (.unresolved name)
  | levels + 1, name =>
    match s.find? name with
    | none => throw (.unresolved name)
    | some binding => do
      followBinding env settings (followWithin s levels) name binding
        ((← get).results.lookup name)

/-- Evaluates an expression of a program. In a program whose names have been checked, references
lead through each definition at most once. -/
def eval (s : Selection) (e : Expr) : EvalM Trace :=
  evalWith env settings (followWithin env settings s s.bindings.length) e

end

end Evaluation

/-- The outcome of an evaluation: the questions put to the environment, in order, and the trace,
unless the evaluation failed. -/
structure Evaluation where
  asked : List Query
  result : Except EvalError Trace

namespace Selection

/-- Evaluates the master expression of a program. -/
def evaluate (s : Selection) (env : Environment) (settings : Settings) : Evaluation :=
  let (result, progress) := (Evaluation.eval env settings s s.master).run.run {}
  ⟨progress.asked.reverse, result⟩

end Selection

end Requirements
