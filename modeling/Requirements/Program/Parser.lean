import Requirements.Program.Basic
import Requirements.Token.Lexer

/-!
# Reading programs

The grammar has one level per binding strength, the weakest first: connectives, `as`, `in`,
equality, ordering, primary expressions. Connectives group to the left; the other levels take their
operator at most once. Parentheses nest at most `maxNesting` deep.

A reader consumes tokens from the front of a `Feed` and either returns a value or fails with a fault
and its place. The readers of the lower levels are given the reader for what stands between
parentheses, so that the nesting limit is what their recursion is on.
-/

namespace Requirements

/-- What a text should have gone on with. -/
inductive Expectation where
  | definitionName
  | assign
  | semicolon
  | tagColon
  | tagName
  | openSet
  | closeSet
  | referenceName
  | closeBrace
  | closeParen
  | openArguments (kind : Probe)
  | argument
  | feature
deriving DecidableEq, Repr

namespace Expectation

/-- What was expected, in words. -/
def wording : Expectation → String
  | definitionName => "a name"
  | assign => "'='"
  | semicolon => "';'"
  | tagColon => "':' before tag"
  | tagName => "a tag name"
  | openSet => "'[' after 'in'"
  | closeSet => "']'"
  | referenceName => "a macro name"
  | closeBrace => "'\x7d'"
  | closeParen => "')'"
  | openArguments kind => "'(' after " ++ kind.name
  | argument => "a quoted argument"
  | feature => "a feature name"

end Expectation

/-- What can be wrong with the order of the words of a text. The word that was found instead is
`none` at the end of the text. -/
inductive GrammarFault where
  | expected (what : Expectation) (found : Option Lexeme)
  | unexpected (found : Option Lexeme)
  | unexpectedAfterMaster (found : Lexeme)
  | secondMaster
  | definitionAfterMaster
  | unknownFunction (name : String)
  | tagOutsideChoice
  | tagCollision (tag : String) (line : Nat)
  | emptyRange (text : String)
  | emptySet
  | notConjunction (found : Option Lexeme)
  | nestedTooDeeply
deriving DecidableEq, Repr

namespace GrammarFault

/-- A word that was found, or the end of the text, in quotes. -/
def foundText (found : Option Lexeme) : String :=
  Text.quoted ((found.map Lexeme.text).getD "end of input")

/-- What is wrong, in words. -/
def message : GrammarFault → String
  | expected what found => "Expected " ++ what.wording ++ ", found " ++ foundText found
  | unexpected found => "Unexpected " ++ foundText found
  | unexpectedAfterMaster found => "Unexpected token " ++ Text.quoted found.text
  | secondMaster => "More than one master expression"
  | definitionAfterMaster => "Statement after the master expression"
  | unknownFunction name => "Unknown function " ++ Text.quoted name
  | tagOutsideChoice => "'as' is only allowed inside a choice body"
  | tagCollision tag line => "Tag ':" ++ tag ++ "' already used on line " ++ toString line
  | emptyRange text => "Empty version range " ++ Text.quoted text
  | emptySet => "Version set needs at least one range"
  | notConjunction found =>
    "Only '&&' is allowed in a feature list, found " ++
      Text.quoted ((found.map Lexeme.text).getD "")
  | nestedTooDeeply => "Expression nested too deeply"

end GrammarFault

/-- The deepest nesting of parentheses. -/
def maxNesting : Nat := 64

namespace Parser

/-- What has still to be read: the tokens, the end of the text, and the tags used so far, each with
the line of its use. -/
structure Feed where
  tokens : List Token
  finish : Position
  tags : List (String × Nat)
deriving DecidableEq, Repr

/-- A reader of something in the grammar. -/
abbrev Reader := StateT Feed (Except (Located GrammarFault))

/-- The word that comes next, if the text goes on. -/
def next? : Reader (Option Lexeme) := do
  return (← get).tokens.head?.map Token.lexeme

/-- The place of the word that comes next. -/
def place : Reader Position := do
  let feed ← get
  return (feed.tokens.head?.map Token.start).getD feed.finish

/-- Passes over the word that comes next. -/
def skip : Reader Unit :=
  modify fun feed => { feed with tokens := feed.tokens.tail }

/-- Fails at the given place. -/
def failAt {α : Type} (position : Position) (fault : GrammarFault) : Reader α :=
  throw ⟨fault, position⟩

/-- Fails at the word that comes next. -/
def fail {α : Type} (fault : GrammarFault) : Reader α := do
  failAt (← place) fault

/-- Reads the word `l`. -/
def expect (l : Lexeme) (what : Expectation) : Reader Unit := do
  let found ← next?
  if found = some l then skip else fail (.expected what found)

/-- Reads a name. -/
def expectName (what : Expectation) : Reader String := do
  match ← next? with
  | some (.name text) => skip; return text
  | found => fail (.expected what found)

/-- Reads a string literal. -/
def expectQuoted : Reader String := do
  match ← next? with
  | some (.quoted value) => skip; return value
  | found => fail (.expected .argument found)

/-- Runs a repetition, often enough to pass over every token that is left. -/
def forTokens {α : Type} (loop : Nat → Reader α) : Reader α := do
  loop ((← get).tokens.length + 1)

/-! ### Primary expressions -/

/-- The arguments of a probe behind the first. -/
def argumentsFrom : Nat → Reader (List String)
  | 0 => return []
  | n + 1 => do
    if (← next?) = some (.mark .comma) then
      skip
      let arg ← expectQuoted
      return arg :: (← argumentsFrom n)
    else return []

/-- The arguments of a probe, with their parentheses. -/
def arguments (kind : Probe) : Reader (List String) := do
  expect (.mark .openParen) (.openArguments kind)
  let first ← expectQuoted
  let others ← forTokens argumentsFrom
  expect (.mark .closeParen) .closeParen
  return first :: others

/-- The features of a list behind the first, up to the closing parenthesis. -/
def featuresFrom : Nat → Reader (List String)
  | 0 => return []
  | n + 1 => do
    match ← next? with
    | some (.mark .closeParen) => skip; return []
    | some (.logical .and) =>
      skip
      let feature ← expectName .feature
      return feature :: (← featuresFrom n)
    | found => fail (.notConjunction found)

/-- A feature list, behind its opening. -/
def features : Reader (List String) := do
  let first ← expectName .feature
  let others ← forTokens featuresFrom
  return first :: others

/-- A module or a probe, behind its name, which stood at `start`. -/
def named (start : Position) (name : String) : Reader Expr := do
  match Probe.ofName? name with
  | some kind => return .probe kind (← arguments kind)
  | none =>
    match ← next? with
    | some (.mark .openParen) => failAt start (.unknownFunction name)
    | some .openFeatures =>
      skip
      return .package name none (← features)
    | _ => return .package name none []

/-- A reference, behind its opening brace. -/
def braced : Reader Expr := do
  let name ← expectName .referenceName
  expect (.mark .closeBrace) .closeBrace
  match Platform.ofName? name with
  | some fact => return .platform fact
  | none => return .reference name

/-- A primary expression. The reader `nested` reads what stands between parentheses; there is none
where no further parenthesis may be opened. -/
def primary (nested : Option (Reader Expr)) : Reader Expr := do
  match ← next? with
  | some (.name name) =>
    let start ← place
    skip
    named start name
  | some (.mark .openBrace) => skip; braced
  | some (.quoted value) => skip; return .text value
  | some (.version value) => skip; return .version value
  | some (.keyword .yes) => skip; return .bool true
  | some (.keyword .no) => skip; return .bool false
  | some (.mark .openParen) =>
    match nested with
    | none => fail .nestedTooDeeply
    | some inner =>
      skip
      let e ← inner
      expect (.mark .closeParen) .closeParen
      return e
  | found => fail (.unexpected found)

/-! ### Comparisons, set tests and tags -/

/-- An operand, perhaps compared with another by one of the operators that `admits` admits. -/
def compared (admits : CompareOp → Bool) (operand : Reader Expr) : Reader Expr := do
  let lhs ← operand
  match ← next? with
  | some (.compare op) =>
    if admits op then
      skip
      let rhs ← operand
      return .comparison op lhs rhs
    else return lhs
  | _ => return lhs

/-- The ranges of a version set. -/
def rangesFrom : Nat → Reader (List Version.Range)
  | 0 => return []
  | n + 1 => do
    match ← next? with
    | some (.range text r) =>
      if r.isEmpty then fail (.emptyRange text)
      else
        skip
        return r :: (← rangesFrom n)
    | _ => return []

/-- A version set, with its brackets. -/
def versionSet : Reader Version.RangeSet := do
  let start ← place
  expect .openSet .openSet
  let ranges ← forTokens rangesFrom
  expect .closeSet .closeSet
  if ranges.isEmpty then failAt start .emptySet else return ⟨ranges⟩

/-- An operand, perhaps tested for membership in a version set. -/
def member (operand : Reader Expr) : Reader Expr := do
  let e ← operand
  if (← next?) = some (.keyword .membership) then
    skip
    return e.membership (← versionSet)
  else return e

/-- A tag that has not been used before. -/
def freshTag : Reader String := do
  let start ← place
  let tag ← expectName .tagName
  let feed ← get
  match feed.tags.lookup tag with
  | some line => failAt start (.tagCollision tag line)
  | none =>
    set { feed with tags := (tag, start.line) :: feed.tags }
    return tag

/-- An operand, perhaps with a tag, for which it must stand in the body of a choice. -/
def alternative (inChoice : Bool) (operand : Reader Expr) : Reader Expr := do
  let e ← operand
  if (← next?) = some (.keyword .tagging) then
    if inChoice then
      skip
      expect (.mark .colon) .tagColon
      return .tagged e (← freshTag)
    else fail .tagOutsideChoice
  else return e

/-! ### Connectives -/

/-- The operands that connectives join to `lhs`. -/
def joined (operand : Reader Expr) : Nat → Expr → Reader Expr
  | 0, lhs => return lhs
  | n + 1, lhs => do
    match ← next? with
    | some (.logical op) =>
      skip
      let rhs ← operand
      joined operand n (.logical op lhs rhs)
    | _ => return lhs

/-- Operands joined by connectives. -/
def chain (operand : Reader Expr) : Reader Expr := do
  let first ← operand
  forTokens fun n => joined operand n first

/-- An expression whose primaries in parentheses are read by `nested`. -/
def exprWith (inChoice : Bool) (nested : Option (Reader Expr)) : Reader Expr :=
  chain <| alternative inChoice <| member <|
    compared CompareOp.isEquality <| compared (fun op => !op.isEquality) <| primary nested

/-- An expression in which parentheses nest at most `levels` deep. -/
def expr (inChoice : Bool) : Nat → Reader Expr
  | 0 => exprWith inChoice none
  | levels + 1 => exprWith inChoice (some (expr inChoice levels))

/-! ### Definitions and programs -/

/-- A definition, behind its keyword, which stood on line `line`. -/
def definition (kind : DefinitionKind) (line : Nat) : Reader Definition := do
  let name ← expectName .definitionName
  expect (.mark .assign) .assign
  let body ← expr (kind == .choice) maxNesting
  expect (.mark .semicolon) .semicolon
  return { kind, name, body, line }

/-- The kind of definition that a word announces. -/
def announced? : Option Lexeme → Option DefinitionKind
  | some (.keyword .define) => some .plain
  | some (.keyword .choice) => some .choice
  | _ => none

/-- The definitions at the start of a text. -/
def definitionsFrom : Nat → Reader (List Definition)
  | 0 => return []
  | n + 1 => do
    match announced? (← next?) with
    | some kind =>
      let start ← place
      skip
      let d ← definition kind start.line
      return d :: (← definitionsFrom n)
    | none => return []

/-- The master expression, if there is one, and the semicolon that may follow it. Nothing may come
behind them. -/
def masterExpr : Reader (Option Expr) := do
  if (← next?) = none then return none
  let e ← expr false maxNesting
  if (← next?) = some (.mark .semicolon) then skip
  match ← next? with
  | none => return some e
  | some l =>
    if l.startsDefinition then fail .definitionAfterMaster
    else if l.startsExpr then fail .secondMaster
    else fail (.unexpectedAfterMaster l)

/-- A whole text. -/
def script : Reader Script := do
  let definitions ← forTokens definitionsFrom
  let master ← masterExpr
  return { definitions, master }

end Parser

/-- What can be wrong with the form of a text: its words, or their order. -/
inductive SyntaxFault where
  | lexical (fault : LexFault)
  | grammatical (fault : GrammarFault)
deriving DecidableEq, Repr

namespace SyntaxFault

/-- What is wrong, in words. -/
def message : SyntaxFault → String
  | lexical fault => fault.message
  | grammatical fault => fault.message

end SyntaxFault

/-- Reads the tokens of a text as a script. -/
def TokenStream.toScript (stream : TokenStream) : Except (Located GrammarFault) Script :=
  Parser.script.run' { tokens := stream.tokens, finish := stream.finish, tags := [] }

/-- Reads a text as a script. -/
def Script.parse (source : String) : Except (Located SyntaxFault) Script :=
  match tokenize source with
  | .error e => .error ⟨.lexical e.fault, e.position⟩
  | .ok stream =>
    match stream.toScript with
    | .error e => .error ⟨.grammatical e.fault, e.position⟩
    | .ok s => .ok s

/-- Why a text is not a single expression. -/
inductive ExprFault where
  | malformed (fault : Located SyntaxFault)
  | hasDefinitions
  | empty
deriving DecidableEq, Repr

/-- Reads a text that holds one expression and no definitions. -/
def Expr.parse (source : String) : Except ExprFault Expr :=
  match Script.parse source with
  | .error e => .error (.malformed e)
  | .ok s =>
    if s.definitions.isEmpty then
      match s.master with
      | some e => .ok e
      | none => .error .empty
    else .error .hasDefinitions

end Requirements
