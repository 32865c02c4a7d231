import Requirements.Expr.Alternatives
import Requirements.Expr.Printer

/-!
# Programs

A script is what a text says: definitions, followed by at most one master expression. A program is a
script whose names have been checked; it always has a master expression. Definitions of both kinds
share one space of names. Only the body of a choice may hold tags.
-/

namespace Requirements

/-- The two kinds of definition: a plain one stands for its body, a choice for the part of its body
that the options select. -/
inductive DefinitionKind where
  | plain
  | choice
deriving DecidableEq, Repr

/-- A named expression, with the line on which its definition starts. -/
structure Definition where
  kind : DefinitionKind
  name : String
  body : Expr
  line : Nat
deriving DecidableEq, Repr

namespace Definition

/-- Whether the definition is a choice. -/
def isChoice (d : Definition) : Bool :=
  d.kind == .choice

/-- The tags that a choice declares, in the order of the text. -/
def tags (d : Definition) : List String :=
  if d.isChoice then d.body.tags else []

/-- The word that starts a definition of either kind. -/
def keyword (d : Definition) : String :=
  match d.kind with
  | .plain => "define"
  | .choice => "choice"

/-- The text of a definition. -/
def format (d : Definition) : String :=
  d.keyword ++ " " ++ d.name ++ " = " ++ d.body.format ++ ";"

end Definition

/-- The definitions and the master expression of a text. -/
structure Script where
  definitions : List Definition
  master : Option Expr
deriving DecidableEq, Repr

namespace Script

/-- The text of a script: its definitions in order, one to a line, then the master expression. -/
def format (s : Script) : String :=
  "\n".intercalate (s.definitions.map Definition.format ++ (s.master.map Expr.format).toList)

end Script

/-- Definitions and a master expression whose names have been checked. -/
structure Program where
  definitions : List Definition
  master : Expr
deriving DecidableEq, Repr

namespace Program

/-- The plain definitions, in the order of the text. -/
def plains (p : Program) : List Definition :=
  p.definitions.filter fun d => !d.isChoice

/-- The choices, in the order of the text. -/
def choices (p : Program) : List Definition :=
  p.definitions.filter Definition.isChoice

/-- The definition of a name. -/
def find? (p : Program) (name : String) : Option Definition :=
  p.definitions.find? fun d => d.name == name

/-- Every tag that a choice declares. These are the options that can be selected. -/
def tags (p : Program) : List String :=
  Text.nameSet (p.definitions.flatMap Definition.tags)

/-- The definitions in the order in which they are printed: by line, and on one line the plain ones
before the choices. -/
def printOrder (p : Program) : List Definition :=
  (p.plains ++ p.choices).mergeSort fun d e => d.line ≤ e.line

/-- The text of a program. -/
def format (p : Program) : String :=
  ({ definitions := p.printOrder, master := some p.master } : Script).format

/-! ### Equality up to layout -/

/-- What matters of the definitions of one kind: names and bodies, in the order of the names. -/
def table (definitions : List Definition) : List (String × Expr) :=
  (Text.sortBy Definition.name definitions).map fun d => (d.name, d.body.canonical)

/-- Two programs are the same if their master expressions agree and their plain definitions and
choices agree name by name, versions being compared as versions. -/
def same (p q : Program) : Bool :=
  p.master.canonical == q.master.canonical &&
    table p.plains == table q.plains && table p.choices == table q.choices

end Program

end Requirements
