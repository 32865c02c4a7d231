/-!
# The words of a command line

A word is an option, with or without a value in the same word, or an argument. An option has a long
name, of which any beginning will do that no other option shares, and perhaps a letter. Behind the
word `--` every word is an argument.
-/

namespace Requirements

namespace CommandLine

/-- An option without a value. -/
inductive Flag where
  | help
  | actionableOnly
  | hideShadowed
  | listModules
  | verbose
  | version
deriving DecidableEq, Repr

/-- An option with a value. -/
inductive Setting where
  | expression
  | environment
  | option
  | config
  | format
  | logFile
deriving DecidableEq, Repr

/-- An option. -/
inductive Key where
  | flag (flag : Flag)
  | setting (setting : Setting)
deriving DecidableEq, Repr

/-- The long names of the options. -/
def longNames : List (String × Key) :=
  [("help", .flag .help), ("expression", .setting .expression), ("env", .setting .environment),
    ("option", .setting .option), ("config", .setting .config), ("format", .setting .format),
    ("actionable-only", .flag .actionableOnly), ("hide-shadowed", .flag .hideShadowed),
    ("list-modules", .flag .listModules), ("verbose", .flag .verbose),
    ("log-file", .setting .logFile), ("version", .flag .version)]

/-- The option that a letter stands for. -/
def letterKey? : Char → Option Key
  | 'h' => some (.flag .help)
  | 'e' => some (.setting .expression)
  | 'o' => some (.setting .option)
  | 'v' => some (.flag .verbose)
  | _ => none

/-- The options that a long name or its beginning can mean. A name in full means that option
alone. -/
def longKeys (name : String) : List Key :=
  match longNames.lookup name with
  | some key => [key]
  | none =>
    (longNames.filter fun n => name.toList.isPrefixOf n.1.toList).map Prod.snd

/-- A word of the command line: an argument, the mark that only arguments follow, an option by its
long name with the value behind an equals sign, a letter with the characters that follow it in the
word, or an option that there is not. -/
inductive Word where
  | argument (text : String)
  | separator
  | long (key : Key) (value : Option String)
  | letter (key : Key) (tail : List Char)
  | unknown (text : String)
deriving DecidableEq, Repr

/-- What is wrong with a command line. -/
inductive UsageError where
  | ambiguous (word : String)
  | missingValue (setting : Setting)
  | unexpectedValue (flag : Flag)
  | unknownFormat (value : String)
  | unrecognized (words : List String)
  | missingEnvironment
  | missingProgram
deriving DecidableEq, Repr

namespace Word

/-- Whether a word is a negative number, which is an argument: decimal digits, perhaps with a point
in front of the last of them. -/
def isNegativeNumber : List Char → Bool
  | '-' :: cs =>
    let whole := cs.takeWhile Char.isDigit
    match cs.dropWhile Char.isDigit with
    | [] => !whole.isEmpty
    | '.' :: digits => !digits.isEmpty && digits.all Char.isDigit
    | _ => false
  | _ => false

/-- What a word is that starts like an option but names none: an argument if it is a number or has a
space in it. -/
def ofUnnamed (cs : List Char) : Word :=
  if isNegativeNumber cs || cs.contains ' ' then argument (String.ofList cs)
  else unknown (String.ofList cs)

/-- A word by its characters. -/
def ofChars : List Char → Except UsageError Word
  | '-' :: '-' :: cs =>
    let name := cs.takeWhile (· != '=')
    let value := match cs.dropWhile (· != '=') with
      | [] => none
      | _ :: value => some (String.ofList value)
    match longKeys (String.ofList name) with
    | [] => .ok (ofUnnamed ('-' :: '-' :: cs))
    | [key] => .ok (long key value)
    | _ => .error (.ambiguous (String.ofList ('-' :: '-' :: cs)))
  | ['-'] => .ok (argument "-")
  | '-' :: c :: cs =>
    match letterKey? c with
    | some key => .ok (letter key cs)
    | none => .ok (ofUnnamed ('-' :: c :: cs))
  | cs => .ok (argument (String.ofList cs))

/-- The words of a command line. -/
def ofTexts : List String → Except UsageError (List Word)
  | [] => .ok []
  | s :: rest =>
    if s = "--" then .ok (separator :: rest.map argument)
    else
      match ofChars s.toList with
      | .error e => .error e
      | .ok word => (ofTexts rest).map (word :: ·)

end Word

end CommandLine

end Requirements
