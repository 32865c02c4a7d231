import Requirements.Expr.Basic

/-!
# Printing expressions

An expression is printed with the parentheses that its structure needs and no others. Every form of
expression has a binding strength, and an operand is put between parentheses when it binds less
strongly than its place demands.
-/

namespace Requirements

namespace Expr

/-- How strongly an operand binds, weakest first. -/
inductive Strength where
  | logical
  | tagged
  | within
  | equality
  | ordering
  | primary
deriving DecidableEq, Repr

namespace Strength

/-- The place of a strength in the order, the weakest first. -/
def rank : Strength → Nat
  | logical => 0
  | tagged => 1
  | within => 2
  | equality => 3
  | ordering => 4
  | primary => 5

/-- How strongly a comparison binds. -/
def ofCompare (op : CompareOp) : Strength :=
  if op.isEquality then equality else ordering

end Strength

/-- How strongly an expression binds. A module with a condition binds like the comparison or set
test that it is written as. -/
def strength : Expr → Strength
  | logical _ _ _ => .logical
  | tagged _ _ => .tagged
  | within _ _ => .within
  | package _ (some (.within _)) _ => .within
  | package _ (some (.compare op _)) _ => .ofCompare op
  | compare op _ _ => .ofCompare op
  | _ => .primary

/-- Puts parentheses around the text of an operand that binds less strongly than `place` demands. -/
def parenthesize (place actual : Strength) (text : String) : String :=
  if actual.rank < place.rank then "(" ++ text ++ ")" else text

/-- The characters that stand for `c` in a string literal. -/
def literalChar (c : Char) : List Char :=
  if c = '\\' then ['\\', '\\']
  else if c = '\'' then ['\\', '\'']
  else if c = '\n' then ['\\', 'n']
  else if c = '\t' then ['\\', 't']
  else [c]

/-- A text as a string literal. -/
def literal (s : String) : String :=
  String.ofList ('\'' :: s.toList.flatMap literalChar ++ ['\''])

/-- A name between braces, as a reference is written. -/
def braced (name : String) : String :=
  "\x7b" ++ name ++ "\x7d"

/-- A module with its feature list. -/
def packageText (name : String) (features : List String) : String :=
  if features.isEmpty then name else name ++ "#(" ++ " && ".intercalate features ++ ")"

/-- A condition on a version, as it follows the name of a module. -/
def constraintText : Option Constraint → String
  | none => ""
  | some (.within set) => " in " ++ set.toText
  | some (.compare op v) => " " ++ op.symbol ++ " " ++ v.toText

/-- The text of an expression. -/
def format : Expr → String
  | bool value => if value then "true" else "false"
  | text value => literal value
  | version v => v.toText
  | package name constraint features => packageText name features ++ constraintText constraint
  | platform fact => braced fact.name
  | reference name => braced name
  | probe kind args => kind.name ++ "(" ++ ", ".intercalate (args.map literal) ++ ")"
  | compare op lhs rhs =>
    let place := if op.isEquality then Strength.ordering else Strength.primary
    parenthesize place lhs.strength lhs.format ++ " " ++ op.symbol ++ " " ++
      parenthesize place rhs.strength rhs.format
  | within operand set =>
    parenthesize .equality operand.strength operand.format ++ " in " ++ set.toText
  | tagged operand tag =>
    parenthesize .within operand.strength operand.format ++ " as :" ++ tag
  | logical op lhs rhs =>
    lhs.format ++ " " ++ op.symbol ++ " " ++ parenthesize .tagged rhs.strength rhs.format

/-- A short name for an expression in a list of places. -/
def label : Expr → String
  | logical op _ _ => op.symbol
  | tagged _ tag => "as :" ++ tag
  | e => e.format

end Expr

end Requirements
