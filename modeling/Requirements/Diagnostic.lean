import Requirements.Program.Selection

/-!
# Diagnostics

Every failure is shown to the user as a message, followed by the place in the program text where
there is one. The names of a script are checked definition by definition, so their faults have a
line at most.
-/

namespace Requirements

/-- Where in a text a failure was found. -/
inductive Location where
  | nowhere
  | line (line : Nat)
  | position (position : Position)
deriving DecidableEq, Repr

namespace Location

/-- The place as the end of a message. -/
def text : Location → String
  | nowhere => ""
  | line l => " (line " ++ toString l ++ ", column None)"
  | position p => " (line " ++ toString p.line ++ ", column " ++ toString p.column ++ ")"

end Location

namespace SemanticFault

/-- Where the fault was found. -/
def location (fault : SemanticFault) : Location :=
  match fault.line? with
  | some l => .line l
  | none => .nowhere

/-- The message with its place. -/
def text (fault : SemanticFault) : String :=
  fault.message ++ fault.location.text

end SemanticFault

namespace CompileError

/-- What is wrong, in words. -/
def message : CompileError → String
  | malformed e => e.fault.message
  | semantic fault => fault.message

/-- Where the error was found. -/
def location : CompileError → Location
  | malformed e => .position e.position
  | semantic fault => fault.location

/-- The message with its place. -/
def text (e : CompileError) : String :=
  e.message ++ e.location.text

end CompileError

namespace ExprFault

/-- What is wrong, in words. -/
def message : ExprFault → String
  | malformed e => e.fault.message
  | hasDefinitions => "Expected a bare expression, found statements"
  | empty => "Empty expression"

/-- Where the fault was found. -/
def location : ExprFault → Location
  | malformed e => .position e.position
  | hasDefinitions | empty => .nowhere

end ExprFault

/-- What a user is told about a text: nothing, or what is wrong with its form. -/
def validate (source : String) : Option String :=
  match Script.parse source with
  | .ok _ => none
  | .error e => some (CompileError.malformed e).text

end Requirements
