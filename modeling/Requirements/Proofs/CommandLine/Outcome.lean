import Mathlib.Data.List.Basic
import Mathlib.Tactic.Lemma
import Requirements.CommandLine.Run
import Requirements.Proofs.Text.Split

/-!
# What a run comes to

A check goes through six stages: the system is described, the settings and the program are read, the
program is compiled, its alternatives are selected, and it is evaluated. Each of them may fail, and
then the run ends with the reason and writes nothing. Otherwise the status is that of the
evaluation. How the report is presented decides what is written and nothing else.
-/

namespace Requirements

namespace CommandLine

/-! ### Pages

What is written of a report depends on its entries only through their texts and two counts. -/

namespace Format

/-- The outcome in words. -/
def verdict (result : Bool) : String :=
  if result then "SATISFIED" else "NOT SATISFIED"

end Format

namespace Status

end Status

namespace Invocation

/-- The entries of a report that are shown: if asked, the actionable ones only, and without the
shadowed ones. -/
def shown (actionableOnly hideShadowed : Bool) (entries : List Entry) : List Entry :=
  entries.filter fun e => (actionableOnly → e.actionable) ∧ (hideShadowed → !e.shadowed)

/-- All stages of a check succeed, and the evaluation is recorded in `t`. -/
inductive Evaluates (i : Invocation) (source : ProgramSource) (s : Sources) :
    Selection → Trace → Prop
  | intro {system : SystemDescription} {settings : Settings} {text : String} {program : Program}
    {selection : Selection} {t : Trace} :
    i.system s = .ok system → i.settings s = .ok settings → programText source s = .ok text →
    Program.compile text = .ok program → program.select i.options = .ok selection →
    (selection.evaluate system.environment settings).result = .ok t →
    Evaluates i source s selection t

/-- The first stage of a check that does not succeed fails for the given reason. -/
inductive Stops (i : Invocation) (source : ProgramSource) (s : Sources) : RunError → Prop
  | system {e : RunError} : i.system s = .error e → Stops i source s e
  | settings {system : SystemDescription} {e : RunError} : i.system s = .ok system →
    i.settings s = .error e → Stops i source s e
  | program {system : SystemDescription} {settings : Settings} {e : RunError} :
    i.system s = .ok system → i.settings s = .ok settings → programText source s = .error e →
    Stops i source s e
  | compile {system : SystemDescription} {settings : Settings} {text : String} {e : CompileError} :
    i.system s = .ok system → i.settings s = .ok settings → programText source s = .ok text →
    Program.compile text = .error e → Stops i source s (.compile e)
  | selection {system : SystemDescription} {settings : Settings} {text : String}
    {program : Program} {fault : SemanticFault} :
    i.system s = .ok system → i.settings s = .ok settings → programText source s = .ok text →
    Program.compile text = .ok program → program.select i.options = .error fault →
    Stops i source s (.selection fault)
  | evaluation {system : SystemDescription} {settings : Settings} {text : String}
    {program : Program} {selection : Selection} {e : EvalError} :
    i.system s = .ok system → i.settings s = .ok settings → programText source s = .ok text →
    Program.compile text = .ok program → program.select i.options = .ok selection →
    (selection.evaluate system.environment settings).result = .error e →
    Stops i source s (.evaluation e)

variable {i : Invocation} {source : ProgramSource} {s : Sources}

/-- The invocation with another presentation of the report. -/
def presented (i : Invocation) (format : Format) (actionableOnly hideShadowed : Bool) :
    Invocation :=
  { i with format, actionableOnly, hideShadowed }

variable {format : Format} {actionableOnly hideShadowed : Bool}

/-- The way a report is presented does not move the stage at which a run stops. -/
lemma Stops.presented {e : RunError} (h : i.Stops source s e) :
    (i.presented format actionableOnly hideShadowed).Stops source s e := by
  cases h with
  | system h₁ => exact .system h₁
  | settings h₁ h₂ => exact .settings h₁ h₂
  | program h₁ h₂ h₃ => exact .program h₁ h₂ h₃
  | compile h₁ h₂ h₃ h₄ => exact .compile h₁ h₂ h₃ h₄
  | selection h₁ h₂ h₃ h₄ h₅ => exact .selection h₁ h₂ h₃ h₄ h₅
  | evaluation h₁ h₂ h₃ h₄ h₅ h₆ => exact .evaluation h₁ h₂ h₃ h₄ h₅ h₆

/-- The way a report is presented does not change what is evaluated. -/
lemma Evaluates.presented {selection : Selection} {t : Trace}
    (h : i.Evaluates source s selection t) :
    (i.presented format actionableOnly hideShadowed).Evaluates source s selection t := by
  cases h with
  | intro h₁ h₂ h₃ h₄ h₅ h₆ => exact .intro h₁ h₂ h₃ h₄ h₅ h₆

end Invocation

end CommandLine

end Requirements
