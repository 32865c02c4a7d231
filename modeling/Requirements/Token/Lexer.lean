import Requirements.Token.Basic
import Requirements.Version.Reader

/-!
# Splitting a text into tokens

The lexer cuts one piece after another off the front of a text. A piece is a word, or a blank or a
comment that stands for nothing. What a piece may be depends on little: whether the text stands
inside the brackets of a version set, how many parentheses of a feature list are open, and whether
a name ends right here, since only a `#` that touches the name before it opens a feature list; any
other starts a comment.
-/

namespace Requirements

/-- What can be wrong with the words of a text. -/
inductive LexFault where
  | unexpectedCharacter (c : Char)
  | unterminatedString
  | unterminatedSet
  | malformedRange (text : String)
  | featuresNotOpened
  | commentInFeatures
  | unterminatedFeatures
deriving DecidableEq, Repr

namespace LexFault

/-- What is wrong, in words. -/
def message : LexFault → String
  | unexpectedCharacter c => "Unexpected character " ++ Text.quoted (String.ofList [c])
  | unterminatedString => "Unterminated string literal"
  | unterminatedSet => "Unterminated version set"
  | malformedRange text => "Malformed version range " ++ Text.quoted text
  | featuresNotOpened => "Expected '(' after '#' in feature list"
  | commentInFeatures => "Comment inside feature list"
  | unterminatedFeatures => "Unterminated feature list"

end LexFault

/-- A fault with the place where it was found. -/
structure Located (α : Type) where
  fault : α
  position : Position
deriving DecidableEq, Repr

namespace Lexer

open Text

/-- What the next piece of a text depends on. -/
structure Context where
  inSet : Bool
  depth : Nat
  afterName : Bool
deriving DecidableEq, Repr

namespace Context

/-- The context at the start of a text. -/
def initial : Context := ⟨false, 0, false⟩

/-- The context behind a piece. -/
def after (ctx : Context) : Option Lexeme → Context
  | none => { ctx with afterName := false }
  | some (.name _) => { ctx with afterName := true }
  | some .openSet => { ctx with inSet := true, afterName := false }
  | some .closeSet => { ctx with inSet := false, afterName := false }
  | some .openFeatures => { ctx with depth := 1, afterName := false }
  | some (.mark .openParen) =>
    { ctx with depth := if ctx.depth = 0 then 0 else ctx.depth + 1, afterName := false }
  | some (.mark .closeParen) => { ctx with depth := ctx.depth - 1, afterName := false }
  | some _ => { ctx with afterName := false }

end Context

/-- A piece cut off a text: the word it is, if it is one, and its characters after the first. The
stop of a word may lie `overhang` places behind its last character. -/
structure Piece where
  lexeme : Option Lexeme
  tail : List Char
  overhang : Nat := 0
deriving DecidableEq, Repr

/-- The characters that `\c` stands for in a string literal. A backslash before any other
character than these stands for itself. -/
def unescape (c : Char) : List Char :=
  if c = 'n' then ['\n']
  else if c = 't' then ['\t']
  else if c = '\\' ∨ c = '\'' ∨ c = '"' then [c]
  else ['\\', c]

/-- Reads a string literal up to its closing `quote`: the text that it stands for, and the
characters it is written with. -/
def stringTail? (quote : Char) : List Char → Option (List Char × List Char)
  | [] => none
  | '\\' :: c :: cs =>
    (stringTail? quote cs).map fun (value, tail) => (unescape c ++ value, '\\' :: c :: tail)
  | c :: cs =>
    if c = quote then some ([], [c])
    else (stringTail? quote cs).map fun (value, tail) => (c :: value, c :: tail)

/-- The characters of a name after its first: word characters, and parts that are joined by two
colons. -/
def nameTail : List Char → List Char
  | ':' :: ':' :: c :: cs => if isWord c then ':' :: ':' :: c :: nameTail cs else []
  | c :: cs => if isWord c then c :: nameTail cs else []
  | [] => []

/-- The operators of two characters. -/
def pairOperator? (c d : Char) : Option Lexeme :=
  if c = '<' ∧ d = '=' then some (.compare .le)
  else if c = '>' ∧ d = '=' then some (.compare .ge)
  else if c = '=' ∧ d = '=' then some (.compare .eq)
  else if c = '!' ∧ d = '=' then some (.compare .ne)
  else if c = '&' ∧ d = '&' then some (.logical .and)
  else if c = '|' ∧ d = '|' then some (.logical .or)
  else if c = '^' ∧ d = '^' then some (.logical .xor)
  else none

/-- The operators of one character. -/
def singleOperator? (c : Char) : Option Lexeme :=
  if c = '<' then some (.compare .lt)
  else if c = '>' then some (.compare .gt)
  else if c = '=' then some (.mark .assign)
  else none

/-- The operator or mark that a text starts with. An operator is looked for in a window of two
characters first, then in one. The last character of a text still fills the window of two, so an
operator there stops one place behind the text. -/
def operator? (c : Char) (cs : List Char) : Option Piece :=
  match cs.head?.bind (pairOperator? c) with
  | some l => some { lexeme := some l, tail := cs.take 1 }
  | none =>
    match singleOperator? c with
    | some l => some { lexeme := some l, tail := [], overhang := if cs.isEmpty then 1 else 0 }
    | none => (Mark.ofChar? c).map fun m => { lexeme := some (.mark m), tail := [] }

/-- The lexeme of a word: a keyword or a name. -/
def wordLexeme (word : String) : Lexeme :=
  match Keyword.ofText? word with
  | some k => .keyword k
  | none => .name word

/-- The piece that starts with `#`: a feature list is opened, or a comment runs to the end of the
line. -/
def hashPiece (ctx : Context) (cs : List Char) : Except LexFault Piece :=
  if ctx.depth = 0 then
    if ctx.afterName then
      match cs with
      | '(' :: _ => .ok { lexeme := some .openFeatures, tail := ['('] }
      | _ => .error .featuresNotOpened
    else .ok { lexeme := none, tail := cs.takeWhile (· != '\n') }
  else .error .commentInFeatures

/-- The next piece inside the brackets of a version set. -/
def setPiece (c : Char) (cs : List Char) : Except LexFault Piece :=
  if isBlank c || c == ',' then .ok { lexeme := none, tail := [] }
  else if c = ']' then .ok { lexeme := some .closeSet, tail := [] }
  else
    let tail := cs.takeWhile fun d => !(isBlank d || d == ',' || d == ']')
    match Version.Range.ofChars? (c :: tail) with
    | some r => .ok { lexeme := some (.range (String.ofList (c :: tail)) r), tail }
    | none => .error (.malformedRange (String.ofList (c :: tail)))

/-- The piece that starts with a digit: a version. -/
def versionPiece (c : Char) (cs : List Char) : Piece :=
  match Version.literalFrom? (c :: cs) with
  | some (components, rest) =>
    let tail := cs.take (cs.length - rest.length)
    { lexeme := some (.version ⟨components, String.ofList (c :: tail)⟩), tail }
  | none => { lexeme := none, tail := [] }

/-- The next piece outside version sets. -/
def plainPiece (ctx : Context) (c : Char) (cs : List Char) : Except LexFault Piece :=
  if isBlank c then .ok { lexeme := none, tail := [] }
  else if c = '#' then hashPiece ctx cs
  else if c = '[' then
    if cs.contains ']' then .ok { lexeme := some .openSet, tail := [] }
    else .error .unterminatedSet
  else if c = '\'' ∨ c = '"' then
    match stringTail? c cs with
    | some (value, tail) => .ok { lexeme := some (.quoted (String.ofList value)), tail }
    | none => .error .unterminatedString
  else
    match operator? c cs with
    | some piece => .ok piece
    | none =>
      if isDigit c then .ok (versionPiece c cs)
      else if isNameStart c then
        let tail := nameTail cs
        .ok { lexeme := some (wordLexeme (String.ofList (c :: tail))), tail }
      else .error (.unexpectedCharacter c)

/-- The piece that a text starts with. -/
def piece (ctx : Context) (c : Char) (cs : List Char) : Except LexFault Piece :=
  if ctx.inSet then setPiece c cs else plainPiece ctx c cs

/-- The tokens of the rest `cs` of a text, of which the part before `position` has been read. -/
def tokensFrom (ctx : Context) (position : Position) :
    List Char → Except (Located LexFault) TokenStream
  | [] =>
    if ctx.depth = 0 then .ok ⟨[], position⟩ else .error ⟨.unterminatedFeatures, position⟩
  | c :: cs =>
    match piece ctx c cs with
    | .error fault => .error ⟨fault, position⟩
    | .ok p =>
      let stop := position.advanceOver (c :: p.tail)
      match tokensFrom (ctx.after p.lexeme) stop (cs.drop p.tail.length) with
      | .error e => .error e
      | .ok stream =>
        match p.lexeme with
        | none => .ok stream
        | some l =>
          .ok { stream with
                tokens := ⟨l, position, stop.offset + p.overhang⟩ :: stream.tokens }
termination_by cs => cs.length
decreasing_by simp only [List.length_drop, List.length_cons]; omega

end Lexer

/-- The tokens of a text. -/
def tokenize (source : String) : Except (Located LexFault) TokenStream :=
  Lexer.tokensFrom .initial .start source.toList

end Requirements
