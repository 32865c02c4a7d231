import Requirements.Decimal.Numeral
import Requirements.Document.Checked
import Requirements.Settings.Basic

/-!
# Reading settings

The settings of an evaluation are read from a mapping with the keys `memoize_lookups` and
`collaborator_timeout`, which may itself stand under the key `evaluator`. No other keys are allowed,
so that a misspelt one is not passed over.

A time limit is converted as leniently as a validator of typed records does it by default: a truth
value counts as zero or one, and a text counts as the number that it writes, in any of the forms in
which programs write numbers, with `inf` and `nan` among them. `looseNumber?`, `secondsOf?` and
`asTimeout` stand for these conversions; the strict bound on the result is the only condition that
the settings themselves put on it.
-/

namespace Requirements

namespace Settings

open Decimal

/-! ### Numbers -/

/-- The exponent at the end of a number. -/
def exponent? : List Char → Option Int
  | [] => some 0
  | c :: cs =>
    if c = 'e' ∨ c = 'E' then
      let (negative, digits) := splitSign cs
      if digits.isEmpty || !digits.all Char.isDigit then none
      else some (signed negative (digitsValue 10 digits))
    else none

/-- An unsigned number with an optional point and exponent, and at least one digit. -/
def magnitude? (cs : List Char) : Option Float :=
  let word := String.ofList (cs.map Char.toLower)
  if word = "inf" ∨ word = "infinity" then some (1.0 / 0.0)
  else if word = "nan" then some (0.0 / 0.0)
  else
    let whole := cs.takeWhile Char.isDigit
    let rest := cs.dropWhile Char.isDigit
    let (fraction, tail) := match rest with
      | '.' :: more => (more.takeWhile Char.isDigit, more.dropWhile Char.isDigit)
      | rest => ([], rest)
    if whole.isEmpty && fraction.isEmpty then none
    else
      (exponent? tail).map fun e =>
        scaled (digitsValue 10 (whole ++ fraction)) (e - fraction.length)

/-- The number that a text writes. -/
def numberOf? (cs : List Char) : Option Float :=
  let (negative, rest) := splitSign cs
  (magnitude? rest).map fun x => if negative then -x else x

/-- Whether `c` is a space that may stand around a number. -/
def isSpace (c : Char) : Bool :=
  let n := c.toNat
  (0x09 ≤ n && n ≤ 0x0D) || n == 0x20 || n == 0x85 || n == 0xA0 || n == 0x1680 ||
    (0x2000 ≤ n && n ≤ 0x200A) || n == 0x2028 || n == 0x2029 || n == 0x202F || n == 0x205F ||
    n == 0x3000

/-- Whether underscores stand only singly and inside a text. -/
def separates : List Char → Bool
  | [] => true
  | ['_'] => false
  | '_' :: '_' :: _ => false
  | _ :: cs => separates cs

/-- The number that a text writes, perhaps with spaces around it or underscores in it. -/
def looseNumber? (s : String) : Option Float :=
  let cs := s.toList
  let trimmed := ((cs.dropWhile isSpace).reverse.dropWhile isSpace).reverse
  match numberOf? trimmed with
  | some x => some x
  | none =>
    if cs.head? = some '_' || !separates cs then none
    else numberOf? (cs.filter (· != '_'))

/-! ### Fields -/

/-- A number of seconds, before its sign is looked at. -/
def secondsOf? : Scalar → Option Float
  | .bool b => some (if b then 1.0 else 0.0)
  | .int n =>
    let x := Float.ofInt n
    if x.isInf then none else some x
  | .float x => some x
  | .text s => looseNumber? s
  | .date _ | .null => none

/-- A time limit: none, or a number of seconds that is not zero or less. -/
def asTimeout : Document → Checked (Option Float)
  | .scalar .null => .ok none
  | .scalar value =>
    match secondsOf? value with
    | some x => if x ≤ 0.0 then .invalid else .ok (some x)
    | none => .invalid
  | _ => .invalid

/-- The key under which the settings may stand. -/
def wrapper : String := "evaluator"

/-- The key that says whether answers are used again. -/
def memoizeKey : String := "memoize_lookups"

/-- The key of the time limit. -/
def timeoutKey : String := "collaborator_timeout"

/-- The entries that hold the settings: those under `evaluator`, if that is a mapping. -/
def unwrap (entries : List (Scalar × Document)) : List (Scalar × Document) :=
  match Document.get? entries wrapper with
  | some (.mapping inner) => inner
  | _ => entries

/-- The settings that the entries of a mapping give. -/
def ofEntries (entries : List (Scalar × Document)) : Checked Settings :=
  let fields := Checked.both
    (Document.field entries memoizeKey true Document.asBool)
    (Document.field entries timeoutKey none asTimeout)
  (Checked.both fields (Document.onlyKeys entries [memoizeKey, timeoutKey])).map
    fun ((memoize, timeout), _) => { memoize, timeout }

/-- The settings that a document gives. An empty document leaves everything at its default. -/
def ofDocument (d : Document) : Except DocumentError Settings :=
  if d.isBlank then .ok {}
  else
    match d with
    | .mapping entries => (ofEntries (unwrap entries)).mapError .invalid
    | _ => .error .notMapping

/-- What is wrong with the settings in the file `path`, in words. -/
def errorMessage (path : String) : DocumentError → String
  | .malformed => "Malformed config YAML in " ++ path
  | .notMapping => "Config in " ++ path ++ " must be a mapping"
  | .invalid _ => "Invalid evaluator config in " ++ path

end Settings

end Requirements
