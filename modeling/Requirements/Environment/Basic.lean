import Requirements.Expr.Basic

/-!
# Environments

An environment answers questions about a system: which modules are installed, in which version and
with which features, and which header files, libraries and programs are present. It also says what
the platform is. The same question always gets the same answer, and an environment may refuse to
answer.
-/

namespace Requirements

/-- An installed module. The version is what the module declares, if it declares one. -/
structure ModuleRecord where
  name : String
  version : Option String
deriving DecidableEq, Repr

/-- A question about a system. -/
inductive Query where
  | lookup (name : String)
  | feature (name feature : String)
  | probe (kind : Probe) (name : String)
deriving DecidableEq, Repr

namespace Query

/-- The name of the operation that answers the question. -/
def operation : Query → String
  | lookup _ => "lookup"
  | feature _ _ => "has_feature"
  | probe kind _ => kind.name

/-- The arguments of the operation. -/
def arguments : Query → List String
  | lookup m => [m]
  | feature m f => [m, f]
  | probe _ name => [name]

/-- The question as a call of the operation. -/
def text (q : Query) : String :=
  q.operation ++ "(" ++ ", ".intercalate q.arguments ++ ")"

/-- What an answer to the question is: the record of a module, if it is installed, or yes or no. -/
abbrev Answer : Query → Type
  | lookup _ => Option ModuleRecord
  | feature _ _ => Bool
  | probe _ _ => Bool

end Query

/-- Why there is no answer: an error with a text of its own, no answer in time, or an error that is
to reach the user unchanged. -/
inductive Refusal where
  | failed (text : String)
  | timedOut
  | abort (message : String)
deriving DecidableEq, Repr

/-- A system that requirements are checked against. -/
structure Environment where
  answer : (q : Query) → Except Refusal q.Answer
  osname : String
  ithreads : Bool

end Requirements
