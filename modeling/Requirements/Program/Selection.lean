import Requirements.Expr.Prune
import Requirements.Program.Resolver

/-!
# Selecting options

Options are tags. A selection is a program together with a set of options and, for every
definition, what the options leave of its body: all of it for a plain definition, and for a choice
the selected alternatives, if there are any.
-/

namespace Requirements

/-- A set of options from the words a user gives: leading colons do not count. -/
def optionSet (words : List String) : List String :=
  Text.nameSet (words.map fun w => String.ofList (w.toList.dropWhile (· == ':')))

/-- A definition under a selection. A choice of which no alternative is selected has no body. -/
structure Binding where
  kind : DefinitionKind
  name : String
  body : Option Expr
deriving DecidableEq, Repr

namespace Binding

/-- What the options leave of a definition. -/
def ofDefinition (options : List String) (d : Definition) : Binding where
  kind := d.kind
  name := d.name
  body := if d.isChoice then d.body.prune options else some d.body

/-- Whether the definition is a choice. -/
def isChoice (b : Binding) : Bool :=
  b.kind == .choice

end Binding

/-- A program under a set of options. -/
structure Selection where
  options : List String
  bindings : List Binding
  master : Expr
deriving DecidableEq, Repr

namespace Selection

/-- The binding of a name. -/
def find? (s : Selection) (name : String) : Option Binding :=
  s.bindings.find? fun b => b.name == name

end Selection

namespace Program

/-- The program under the options that a user gives, each of which must be a tag of a choice. -/
def select (p : Program) (words : List String) : Except SemanticFault Selection :=
  let options := optionSet words
  match Text.without options p.tags with
  | tag :: _ => .error (.unknownTag tag (Text.closest? tag p.tags))
  | [] => .ok ⟨options, p.definitions.map (Binding.ofDefinition options), p.master⟩

end Program

end Requirements
