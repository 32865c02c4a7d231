import Requirements.Expr.Basic
import Requirements.Position

/-!
# Tokens

The words of a program text. A lexeme is what a word is; a token is a lexeme together with the part
of the text it was found in.
-/

namespace Requirements

/-- The words with a meaning of their own. -/
inductive Keyword where
  | define
  | choice
  | tagging
  | membership
  | yes
  | no
deriving DecidableEq, Repr

namespace Keyword

/-- The keyword as it is written. -/
def text : Keyword → String
  | define => "define"
  | choice => "choice"
  | tagging => "as"
  | membership => "in"
  | yes => "true"
  | no => "false"

/-- The keyword that a word is. -/
def ofText? (s : String) : Option Keyword :=
  [define, choice, tagging, membership, yes, no].find? fun k => k.text == s

end Keyword

/-- The punctuation marks. -/
inductive Mark where
  | openParen
  | closeParen
  | openBrace
  | closeBrace
  | comma
  | colon
  | semicolon
  | assign
deriving DecidableEq, Repr

namespace Mark

/-- The character of a mark. -/
def char : Mark → Char
  | openParen => '('
  | closeParen => ')'
  | openBrace => '\x7b'
  | closeBrace => '\x7d'
  | comma => ','
  | colon => ':'
  | semicolon => ';'
  | assign => '='

/-- The mark that a character is. -/
def ofChar? (c : Char) : Option Mark :=
  [openParen, closeParen, openBrace, closeBrace, comma, colon, semicolon, assign].find?
    fun m => m.char == c

end Mark

/-- A word of a program text. -/
inductive Lexeme where
  | name (text : String)
  | keyword (word : Keyword)
  | mark (mark : Mark)
  | logical (op : LogicalOp)
  | compare (op : CompareOp)
  | quoted (value : String)
  | version (value : Version)
  | openSet
  | range (text : String) (value : Version.Range)
  | closeSet
  | openFeatures
deriving DecidableEq, Repr

namespace Lexeme

/-- The text of a word; for a string literal, the text that it stands for. -/
def text : Lexeme → String
  | name text => text
  | keyword word => word.text
  | mark m => String.ofList [m.char]
  | logical op => op.symbol
  | compare op => op.symbol
  | quoted value => value
  | version value => value.text
  | openSet => "["
  | range text _ => text
  | closeSet => "]"
  | openFeatures => "#("

/-- Whether an expression can start with the word. -/
def startsExpr : Lexeme → Bool
  | name _ | quoted _ | version _ => true
  | keyword .yes | keyword .no => true
  | mark .openParen | mark .openBrace => true
  | _ => false

/-- Whether a definition starts with the word. -/
def startsDefinition : Lexeme → Bool
  | keyword .define | keyword .choice => true
  | _ => false

end Lexeme

/-- A word with its place: where it starts, and the offset where it stops. -/
structure Token where
  lexeme : Lexeme
  start : Position
  stop : Nat
deriving DecidableEq, Repr

/-- The tokens of a text, and the place where the text ends. -/
structure TokenStream where
  tokens : List Token
  finish : Position
deriving DecidableEq, Repr

end Requirements
