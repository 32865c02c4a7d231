import Requirements.Document.Scalar

/-!
# Reading YAML

Documents are read from the part of YAML in which settings are commonly written: mappings and lists
by indentation or between brackets, and scalars that are plain or between quotes. Directives,
anchors, tags and block scalars are not part of it.

The reader works on the text that is left, from a token on. A reader of something in the block style
is told the column where it starts. The recursion is bounded by the length of the text.
-/

namespace Requirements

namespace Yaml

/-! ### Lines and blanks -/

/-- Whether `c` separates tokens. -/
def isWhite (c : Char) : Bool :=
  c == ' ' || c == '\n' || c == '\t'

/-- Whether the text ends or goes on with a white character. -/
def atWhite : List Char → Bool
  | [] => true
  | c :: _ => isWhite c

/-- The text with every line break written as one character. -/
def normalizeBreaks : List Char → List Char
  | '\r' :: '\n' :: cs => '\n' :: normalizeBreaks cs
  | c :: cs => (if c = '\r' ∨ c = '\x85' then '\n' else c) :: normalizeBreaks cs
  | [] => []

/-- Whether a document may hold the character. -/
def isAllowed (c : Char) : Bool :=
  let n := c.toNat
  n == 0x09 || n == 0x0A || n == 0x0D || (0x20 ≤ n && n ≤ 0x7E) || n == 0x85 ||
    (0xA0 ≤ n && n ≠ 0xFFFE && n ≠ 0xFFFF)

/-- The column and the text of the next token, past blank lines and comments. -/
def nextToken? (inComment : Bool) (column : Nat) : List Char → Option (Nat × List Char)
  | [] => none
  | '\n' :: cs => nextToken? false 0 cs
  | c :: cs =>
    if inComment || c = '#' then nextToken? true column cs
    else if c = ' ' then nextToken? false (column + 1) cs
    else some (column, c :: cs)

/-- The text from the end of the line on, if nothing but a comment is left on the line. -/
def endLine? (inComment : Bool) : List Char → Option (List Char)
  | [] => some []
  | '\n' :: cs => some ('\n' :: cs)
  | c :: cs =>
    if inComment || c = '#' then endLine? true cs
    else if c = ' ' then endLine? false cs
    else none

/-- The text past spaces, with their number. -/
def skipSpaces : List Char → Nat × List Char
  | ' ' :: cs => ((skipSpaces cs).1 + 1, (skipSpaces cs).2)
  | cs => (0, cs)

/-- Whether the text is at the end of a line, comments apart. -/
def atLineEnd : List Char → Bool
  | [] => true
  | c :: _ => c == '\n' || c == '#'

/-! ### Scalars -/

/-- A character of a scalar. One that is written as an escape is kept as it is when lines are
folded. -/
structure Letter where
  char : Char
  escaped : Bool

/-- White characters of a scalar: a line break becomes a space, further ones stay. -/
def foldedWhite (pending : List Char) : Nat → List Char
  | 0 => pending
  | 1 => [' ']
  | breaks + 2 => List.replicate (breaks + 1) '\n'

/-- Folds the lines of a scalar. -/
def foldLines (pending : List Char) (breaks : Nat) : List Letter → List Char
  | [] => foldedWhite pending breaks
  | l :: ls =>
    if !l.escaped && l.char = '\n' then foldLines [] (breaks + 1) ls
    else if !l.escaped && (l.char = ' ' || l.char = '\t') then
      foldLines (pending ++ [l.char]) breaks ls
    else foldedWhite pending breaks ++ l.char :: foldLines [] 0 ls

/-- The text of a scalar from its letters. -/
def scalarText (letters : List Letter) : String :=
  String.ofList (foldLines [] 0 letters)

/-- The letters of a scalar between single quotes, and the text behind it. -/
def singleQuoted? : List Char → Option (List Letter × List Char)
  | [] => none
  | '\'' :: '\'' :: cs => (singleQuoted? cs).map fun (ls, rest) => (⟨'\'', true⟩ :: ls, rest)
  | '\'' :: cs => some ([], cs)
  | c :: cs => (singleQuoted? cs).map fun (ls, rest) => (⟨c, false⟩ :: ls, rest)

/-- The characters that are escaped by one letter. -/
def escapes : List (Char × Char) :=
  [('0', '\x00'), ('a', '\x07'), ('b', '\x08'), ('t', '\t'), ('n', '\n'), ('v', '\x0b'),
    ('f', '\x0c'), ('r', '\r'), ('e', '\x1b'), (' ', ' '), ('"', '"'), ('\\', '\\'), ('/', '/'),
    ('N', '\x85'), ('_', '\xa0'), ('L', '\u2028'), ('P', '\u2029')]

/-- How many hexadecimal digits follow an escape by number. -/
def escapeWidth? : Char → Option Nat
  | 'x' => some 2
  | 'u' => some 4
  | 'U' => some 8
  | _ => none

/-- The letters of a scalar between double quotes, and the text behind it. Of an escape by number,
`digits` are still to be read and `value` has been; behind an escaped line break, `continued` holds
up to the next character that is not white. -/
def doubleQuoted? (digits value : Nat) (continued : Bool) :
    List Char → Option (List Letter × List Char)
  | [] => none
  | c :: cs =>
    if digits = 0 then
      if continued && isWhite c then doubleQuoted? 0 0 true cs
      else if c = '"' then some ([], cs)
      else if c = '\\' then
        match cs with
        | [] => none
        | d :: ds =>
          if d = '\n' then doubleQuoted? 0 0 true ds
          else
            match escapeWidth? d with
            | some width => doubleQuoted? width 0 false ds
            | none =>
              match escapes.lookup d with
              | some e => (doubleQuoted? 0 0 false ds).map fun (ls, rest) => (⟨e, true⟩ :: ls, rest)
              | none => none
      else (doubleQuoted? 0 0 false cs).map fun (ls, rest) => (⟨c, false⟩ :: ls, rest)
    else if Scalar.areDigits 16 [c] && c != '_' then
      let value := 16 * value + Decimal.digitValue c
      if digits = 1 then
        (doubleQuoted? 0 0 false cs).map fun (ls, rest) => (⟨Char.ofNat value, true⟩ :: ls, rest)
      else doubleQuoted? (digits - 1) value false cs
    else none

/-- A scalar between quotes, and the text behind it. -/
def quoted? : List Char → Option (String × List Char)
  | '\'' :: cs => (singleQuoted? cs).map fun (ls, rest) => (scalarText ls, rest)
  | '"' :: cs => (doubleQuoted? 0 0 false cs).map fun (ls, rest) => (scalarText ls, rest)
  | _ => none

/-- Whether `c` has a meaning of its own between brackets. -/
def isFlowMark (c : Char) : Bool :=
  c == ',' || c == '[' || c == ']' || c == '\x7b' || c == '\x7d'

/-- Whether `c` has a meaning of its own in front of a value, so that no plain scalar starts with
it. -/
def isIndicator (c : Char) : Bool :=
  ['#', '&', '*', '!', '|', '>', '\'', '"', '%', '@', '\x60'].contains c

/-- Whether a colon that is followed by the given text ends a plain scalar. -/
def endsKey (flow : Bool) (after : List Char) : Bool :=
  atWhite after || (flow && after.head?.any isFlowMark)

/-- Whether a plain scalar can start with the text. -/
def startsPlain (flow : Bool) : List Char → Bool
  | [] => false
  | c :: cs =>
    if c = '-' then !atWhite cs
    else if c = '?' ∨ c = ':' then !flow && !atWhite cs
    else !(isWhite c || isFlowMark c || isIndicator c)

/-- The part of a plain scalar on one line, and the text behind it. -/
def plainRun (flow : Bool) (before : Char) : List Char → List Char × List Char
  | [] => ([], [])
  | c :: cs =>
    if c = '\n' ∨ c = '\t' ∨ (c = '#' ∧ before = ' ') ∨ (c = ':' ∧ endsKey flow cs) ∨
        (flow ∧ (isFlowMark c ∨ c = '?')) then ([], c :: cs)
    else
      let (run, rest) := plainRun flow c cs
      (c :: run, rest)

/-- The column of the next text that is not blank, the number of line breaks before it, and the
text. -/
def pastBreaks (column breaks : Nat) : List Char → Nat × Nat × List Char
  | '\n' :: cs => pastBreaks 0 (breaks + 1) cs
  | ' ' :: cs => pastBreaks (column + 1) breaks cs
  | cs => (column, breaks, cs)

/-- A plain scalar, which goes on over lines that start at column `floor` or further right, and the
text behind it. -/
def plain (flow : Bool) (floor : Nat) : Nat → List Char → List Char × List Char
  | 0, cs => ([], cs)
  | fuel + 1, cs =>
    let (run, rest) := plainRun flow 'x' cs
    let (column, breaks, next) := pastBreaks 0 0 rest
    if run.isEmpty then ([], cs)
    else if breaks = 0 || next.isEmpty || next.head? = some '#' || (!flow && column < floor) ||
        (plainRun flow 'x' next).1.isEmpty then (run, rest)
    else
      let (more, rest) := plain flow floor fuel next
      (run ++ List.replicate breaks '\n' ++ more, rest)

/-- A plain scalar as a value, and the text behind it. -/
def plainScalar (flow : Bool) (floor : Nat) (cs : List Char) : Scalar × List Char :=
  let (letters, rest) := plain flow floor cs.length cs
  let text := (foldLines [] 0 (letters.map fun c => ⟨c, false⟩)).reverse.dropWhile (· == ' ')
  (.ofPlain (String.ofList text.reverse), rest)

/-! ### Mappings -/

/-- Puts a value under a key, in the place of the value that the key had, or at the end. -/
def putEntry (key : Scalar) (value : Document) :
    List (Scalar × Document) → List (Scalar × Document)
  | [] => [(key, value)]
  | e :: es => if e.1 == key then (key, value) :: es else e :: putEntry key value es

/-- The mapping of the given entries, of which a later one replaces an earlier one. -/
def mappingOf (entries : List (Scalar × Document)) : Document :=
  .mapping (entries.foldl (fun es e => putEntry e.1 e.2 es) [])

/-! ### Flow style -/

/-- The text of the next token between brackets. -/
def flowToken? (cs : List Char) : Option (List Char) :=
  (nextToken? false 0 cs).map Prod.snd

/-- A scalar between brackets. -/
def flowScalar? (cs : List Char) : Option (Scalar × List Char) :=
  match quoted? cs with
  | some (s, rest) => some (.text s, rest)
  | none => if startsPlain true cs then some (plainScalar true 0 cs) else none

mutual

/-- A value between brackets. -/
def flowNode? : Nat → List Char → Option (Document × List Char)
  | 0, _ => none
  | fuel + 1, cs =>
    match cs with
    | '[' :: rest => (flowItems? fuel rest).map fun (items, rest) => (.list items, rest)
    | '\x7b' :: rest => (flowEntries? fuel rest).map fun (es, rest) => (mappingOf es, rest)
    | cs => (flowScalar? cs).map fun (s, rest) => (.scalar s, rest)

/-- The value behind a colon, or nothing where the text goes on with a mark. -/
def flowValue? : Nat → List Char → Option (Document × List Char)
  | 0, _ => none
  | fuel + 1, cs =>
    match flowToken? cs with
    | none => none
    | some (c :: rest) =>
      if c = ',' ∨ c = ']' ∨ c = '\x7d' then some (.null, c :: rest)
      else flowNode? fuel (c :: rest)
    | some [] => none

/-- The items of a list up to its closing bracket. An item may be a single entry of a mapping. -/
def flowItems? : Nat → List Char → Option (List Document × List Char)
  | 0, _ => none
  | fuel + 1, cs => do
    let token ← flowToken? cs
    if token.head? = some ']' then some ([], token.drop 1)
    else
      let (first, rest) ← flowNode? fuel token
      let after ← flowToken? rest
      let (item, after) ←
        if after.head? = some ':' then
          match first with
          | .scalar key => do
            let (value, rest) ← flowValue? fuel (after.drop 1)
            let rest ← flowToken? rest
            some (Document.mapping [(key, value)], rest)
          | _ => none
        else some (first, after)
      match after with
      | ',' :: rest => do
        let (items, rest) ← flowItems? fuel rest
        some (item :: items, rest)
      | ']' :: rest => some ([item], rest)
      | _ => none

/-- The entries of a mapping up to its closing brace. A key without a value has none. -/
def flowEntries? : Nat → List Char → Option (List (Scalar × Document) × List Char)
  | 0, _ => none
  | fuel + 1, cs => do
    let token ← flowToken? cs
    if token.head? = some '\x7d' then some ([], token.drop 1)
    else
      let (key, rest) ← flowScalar? token
      let after ← flowToken? rest
      let (value, after) ←
        if after.head? = some ':' then do
          let (value, rest) ← flowValue? fuel (after.drop 1)
          let rest ← flowToken? rest
          some (value, rest)
        else some (Document.null, after)
      match after with
      | ',' :: rest => do
        let (entries, rest) ← flowEntries? fuel rest
        some ((key, value) :: entries, rest)
      | '\x7d' :: rest => some ([(key, value)], rest)
      | _ => none

end

/-! ### Block style -/

/-- Whether an item of a list starts here. -/
def startsItem : List Char → Bool
  | '-' :: cs => atWhite cs
  | _ => false

/-- The key of an entry and the text behind its colon, if an entry starts here. -/
def key? (cs : List Char) : Option (Scalar × List Char) :=
  let found := match quoted? cs with
    | some (s, rest) =>
      if (cs.take (cs.length - rest.length)).contains '\n' then none
      else some (Scalar.text s, rest)
    | none =>
      if startsPlain false cs then
        let (run, rest) := plainRun false 'x' cs
        some (.ofPlain (String.ofList (run.reverse.dropWhile (· == ' ')).reverse), rest)
      else none
  match found with
  | none => none
  | some (key, rest) =>
    match (skipSpaces rest).2 with
    | ':' :: rest => if atWhite rest then some (key, rest) else none
    | _ => none

/-- A value that stands on the line where it starts. -/
def inline? (floor : Nat) (cs : List Char) : Option (Document × List Char) :=
  match cs with
  | '[' :: _ | '\x7b' :: _ => flowNode? (cs.length + 1) cs
  | _ =>
    match quoted? cs with
    | some (s, rest) => some (.scalar (.text s), rest)
    | none =>
      if startsPlain false cs then
        let (s, rest) := plainScalar false floor cs
        some (.scalar s, rest)
      else none

mutual

/-- A value that starts at a column, lines to its left being no part of it, and the text from the
end of its last line on. -/
def node? : Nat → Nat → Nat → List Char → Option (Document × List Char)
  | 0, _, _, _ => none
  | fuel + 1, floor, column, cs =>
    if startsItem cs then
      (items? fuel column cs).map fun (items, rest) => (.list items, rest)
    else
      match key? cs with
      | some _ => (entries? fuel column cs).map fun (es, rest) => (mappingOf es, rest)
      | none => do
        let (d, rest) ← inline? floor cs
        let rest ← endLine? false rest
        some (d, rest)

/-- The items of a list whose hyphens stand at a column. -/
def items? : Nat → Nat → List Char → Option (List Document × List Char)
  | 0, _, _ => none
  | fuel + 1, column, cs => do
    let (spaces, content) := skipSpaces (cs.drop 1)
    let (item, rest) ←
      if atLineEnd content then do
        let rest ← endLine? false content
        match nextToken? false 0 rest with
        | some (c, token) =>
          if column < c then node? fuel (column + 1) c token else some (Document.null, rest)
        | none => some (Document.null, rest)
      else node? fuel (column + 1) (column + 1 + spaces) content
    match nextToken? false 0 rest with
    | some (c, token) =>
      if c = column && startsItem token then do
        let (items, rest) ← items? fuel column token
        some (item :: items, rest)
      else if column < c then none
      else some ([item], rest)
    | none => some ([item], rest)

/-- The entries of a mapping whose keys stand at a column. -/
def entries? : Nat → Nat → List Char → Option (List (Scalar × Document) × List Char)
  | 0, _, _ => none
  | fuel + 1, column, cs => do
    let (key, afterColon) ← key? cs
    let (_, content) := skipSpaces afterColon
    let (value, rest) ←
      if atLineEnd content then do
        let rest ← endLine? false content
        match nextToken? false 0 rest with
        | some (c, token) =>
          if column < c then node? fuel (column + 1) c token
          else if c = column && startsItem token then
            (items? fuel column token).map fun (items, rest) => (Document.list items, rest)
          else some (Document.null, rest)
        | none => some (Document.null, rest)
      else do
        let (d, rest) ← inline? (column + 1) content
        let rest ← endLine? false rest
        some (d, rest)
    match nextToken? false 0 rest with
    | some (c, token) =>
      if c = column then do
        let (entries, rest) ← entries? fuel column token
        some ((key, value) :: entries, rest)
      else if column < c then none
      else some ([(key, value)], rest)
    | none => some ([(key, value)], rest)

end

/-! ### Documents -/

/-- Takes the mark in front of a document off the text. -/
def dropStart : List Char → List Char
  | '-' :: '-' :: '-' :: cs => if atWhite cs then cs else '-' :: '-' :: '-' :: cs
  | cs => cs

/-- The document that a text holds. -/
def read? (source : String) : Option Document :=
  let cs := source.toList
  if !cs.all isAllowed then none
  else
    let cs := dropStart (normalizeBreaks (if cs.head? = some '\ufeff' then cs.drop 1 else cs))
    match nextToken? false 0 cs with
    | none => some .null
    | some (column, token) =>
      match node? (cs.length + 1) 0 column token with
      | none => none
      | some (d, rest) => if (nextToken? false 0 rest).isNone then some d else none

end Yaml

end Requirements
