import Requirements.Evaluation.Basic

/-!
# Evaluation on a stack

An evaluation goes down into operands and definitions, and the stack that it runs on holds a limited
number of frames. Every expression under evaluation takes a frame. All but constants and tagged
expressions take a second one for the step that their kind needs, and a chain of `&&`, `||` and `^^`
takes one such frame for all of its left operands together. Looking through an operand for the
module behind it takes a frame for every reference and every tag on the way.

When no frame is left, the evaluation is broken off without an outcome. Frames that a question to
the environment or the comparison of two values needs for itself are not counted.
-/

namespace Requirements

namespace Trace

/-- The frames that it takes to look through an operand for the module behind it. -/
def operandFrames : Trace → Nat
  | reference _ _ _ body => body.operandFrames + 1
  | tagged operand _ => operand.operandFrames + 1
  | _ => 1

/-- Whether the frames suffice to look through the two operands of a comparison. The right one is
not looked at if the left one failed. -/
def FitOn (frames : Nat) (lhs rhs : Trace) : Prop :=
  lhs.operandFrames ≤ frames ∧ (lhs.failed = true ∨ rhs.operandFrames ≤ frames)

instance (frames : Nat) (lhs rhs : Trace) : Decidable (FitOn frames lhs rhs) :=
  inferInstanceAs (Decidable (_ ∧ _))

end Trace

/-- A step of an evaluation on a stack. It has no value if the stack is exhausted. -/
abbrev StackM := OptionT EvalM

namespace Evaluation

section

variable (env : Environment) (settings : Settings)

/-- Evaluates the operands of a chain of connectives from left to right, each by `eval`. -/
def spineWith (eval : Expr → StackM Trace) : Expr → StackM Trace
  | .logical op lhs rhs => do
    let left ← spineWith eval lhs
    match op.decided? left.truthy with
    | some truthy => return .shortCircuit op left rhs truthy
    | none =>
      let right ← eval rhs
      return .logical op left right (op.apply left.truthy right.truthy)
  | e => eval e

/-- Goes on with the definition that a reference leads to, whose body is evaluated by `eval` unless
its result is known. -/
def enterBinding (eval : Expr → StackM Trace) (name : String) (binding : Binding) :
    Option Trace → StackM Trace
  | some body => return .reference name binding.isChoice true body
  | none =>
    match binding.body with
    | none => return .unselected name
    | some e => do
      let body ← eval e
      modify fun p => { p with results := (name, body) :: p.results }
      return .reference name binding.isChoice false body

/-- The step that the kind of an expression takes, with the given number of frames left. Operands
and bodies are evaluated by `eval`. -/
def stepWith (s : Selection) (eval : Expr → StackM Trace) (frames : Nat) : Expr → StackM Trace
  | .logical op lhs rhs => spineWith eval (.logical op lhs rhs)
  | .compare op lhs rhs => do
    let left ← eval lhs
    let right ← eval rhs
    if Trace.FitOn frames left right then
      let truthy ← left.compareHolds op right
      return .compare op left right truthy
    else failure
  | .within operand set => do
    let inner ← eval operand
    if inner.operandFrames ≤ frames then
      let tested ← inner.testedVersion?
      return .within inner set tested (tested.any set.accepts)
    else failure
  | .reference name =>
    match s.find? name with
    | none => liftM (throw (.unresolved name) : EvalM Trace)
    | some binding => do
      enterBinding eval name binding ((← get).results.lookup name)
  | e => evalWith env settings (fun name => throw (.unresolved name)) e

/-- Evaluates an expression of a program on a stack with the given number of frames left. -/
def evalOn (s : Selection) : Nat → Expr → StackM Trace
  | 0, _ => failure
  | _ + 1, .bool b => return .bool b
  | _ + 1, .text s => return .text s
  | _ + 1, .version v => return .version v
  | frames + 1, .tagged operand tag => do
    let inner ← evalOn s frames operand
    return .tagged inner tag
  | 1, _ => failure
  | frames + 2, e => stepWith env settings s (evalOn s frames) frames e

end

end Evaluation

/-- The outcome of an evaluation on a stack: the questions put to the environment, in order, and the
trace or the error, unless the stack was exhausted. -/
structure StackEvaluation where
  asked : List Query
  result : Option (Except EvalError Trace)

/-- The outcome of an evaluation as one on a stack that suffices. -/
def Evaluation.onStack (e : Evaluation) : StackEvaluation :=
  ⟨e.asked, some e.result⟩

namespace Selection

/-- Evaluates the master expression of a program on a stack with the given number of frames. -/
def evaluateOn (s : Selection) (frames : Nat) (env : Environment) (settings : Settings) :
    StackEvaluation :=
  let (result, progress) := (Evaluation.evalOn env settings s frames s.master).run.run.run {}
  ⟨progress.asked.reverse, match result with
    | .ok none => none
    | .ok (some t) => some (.ok t)
    | .error e => some (.error e)⟩

end Selection

end Requirements
