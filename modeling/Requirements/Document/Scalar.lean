import Requirements.Decimal.Numeral
import Requirements.Document.Basic
import Requirements.Text.Split

/-!
# Plain scalars

A scalar that is written without quotes stands for a truth value, a number, a date or nothing if it
has the form of one, and for itself as a text otherwise. Whether a date is one of the calendar is
not looked at.
-/

namespace Requirements

namespace Scalar

open Decimal

/-! ### Numbers -/

/-- The number that digits write in a base, underscores left out. -/
def looseValue (base : Nat) (cs : List Char) : Nat :=
  digitsValue base (cs.filter (· != '_'))

/-- Whether every character is a digit below `base` or an underscore. -/
def areDigits (base : Nat) (cs : List Char) : Bool :=
  cs.all fun c => c == '_' ||
    ((c.isDigit || ('a' ≤ c && c ≤ 'f') || ('A' ≤ c && c ≤ 'F')) && digitValue c < base)

/-- Whether a part of a number in base sixty is below sixty. -/
def isSixtieth : List Char → Bool
  | [c] => c.isDigit
  | [c, d] => '0' ≤ c && c ≤ '5' && d.isDigit
  | _ => false

/-- The number that parts in base sixty write. -/
def sixtyValue (parts : List (List Char)) : Nat :=
  parts.foldl (fun n part => 60 * n + looseValue 10 part) 0

/-- The value of an unsigned integer: in base two, eight, ten, sixteen, or sixty with colons. -/
def magnitude? : List Char → Option Nat
  | ['0'] => some 0
  | '0' :: 'b' :: c :: cs => if areDigits 2 (c :: cs) then some (looseValue 2 (c :: cs)) else none
  | '0' :: 'x' :: c :: cs =>
    if areDigits 16 (c :: cs) then some (looseValue 16 (c :: cs)) else none
  | '0' :: cs => if areDigits 8 cs then some (looseValue 8 cs) else none
  | c :: cs =>
    if !c.isDigit then none
    else if areDigits 10 cs then some (looseValue 10 (c :: cs))
    else
      match Text.splitChars ':' (c :: cs) with
      | first :: second :: more =>
        if areDigits 10 first && (second :: more).all isSixtieth then
          some (sixtyValue (first :: second :: more))
        else none
      | _ => none
  | [] => none

/-- The integer that a plain scalar writes. -/
def int? (cs : List Char) : Option Int :=
  let (negative, rest) := splitSign cs
  (magnitude? rest).map (signed negative)

/-- The exponent at the end of a fraction: none, or `e` with a sign and digits. -/
def exponent? : List Char → Option Int
  | [] => some 0
  | e :: sign :: c :: cs =>
    if (e = 'e' ∨ e = 'E') ∧ (sign = '+' ∨ sign = '-') ∧ (c :: cs).all Char.isDigit then
      some (signed (sign == '-') (digitsValue 10 (c :: cs)))
    else none
  | _ => none

/-- The value of an unsigned fraction: digits with a point, and perhaps an exponent. Colons separate
parts in base sixty. -/
def fraction? (cs : List Char) : Option Float :=
  let whole := cs.takeWhile (· != '.')
  match cs.dropWhile (· != '.') with
  | [] => none
  | _ :: tail =>
    let places := tail.takeWhile fun c => c.isDigit || c == '_'
    let digits := places.filter (· != '_')
    match exponent? (tail.dropWhile fun c => c.isDigit || c == '_') with
    | none => none
    | some e =>
      if (whole.head?.any Char.isDigit && areDigits 10 whole) ||
          (whole.isEmpty && places.head?.any Char.isDigit) then
        some (scaled (looseValue 10 (whole ++ digits)) (e - digits.length))
      else
        match Text.splitChars ':' whole, tail.all fun c => c.isDigit || c == '_' with
        | first :: second :: more, true =>
          if first.head?.any Char.isDigit && areDigits 10 first &&
              (second :: more).all isSixtieth then
            some (Float.ofNat (sixtyValue (first :: second :: more)) +
              scaled (looseValue 10 digits) (-digits.length))
          else none
        | _, _ => none

/-- The fraction that a plain scalar writes. -/
def float? (cs : List Char) : Option Float :=
  let (negative, rest) := splitSign cs
  if [".inf", ".Inf", ".INF"].contains (String.ofList rest) then
    some (if negative then -1.0 / 0.0 else 1.0 / 0.0)
  else if [".nan", ".NaN", ".NAN"].contains (String.ofList cs) then some (0.0 / 0.0)
  else if rest.head? = some '.' ∧ rest.length ≠ cs.length then none
  else (fraction? rest).map fun x => if negative then -x else x

/-! ### Dates -/

/-- Whether the part of a date or of a time of day has one or two digits. -/
def isShortNumber (cs : List Char) : Bool :=
  (cs.length == 1 || cs.length == 2) && cs.all Char.isDigit

/-- Whether the part of a date or of a time of day has exactly so many digits. -/
def isLongNumber (length : Nat) (cs : List Char) : Bool :=
  cs.length == length && cs.all Char.isDigit

/-- Whether `c` is a blank inside a date. -/
def isDateBlank (c : Char) : Bool :=
  c == ' ' || c == '\t'

/-- Whether the text names the place of a time of day: nothing, `Z`, or a distance in hours, or in
hours and minutes. -/
def isZone : List Char → Bool
  | [] | ['Z'] => true
  | sign :: cs =>
    (sign == '+' || sign == '-') &&
      match Text.splitChars ':' cs with
      | [hours] => isShortNumber hours
      | [hours, minutes] => isShortNumber hours && isLongNumber 2 minutes
      | _ => false

/-- Whether the text is a time of day, with the place that it is meant for or without it. -/
def isClock (cs : List Char) : Bool :=
  let clock := cs.takeWhile fun c => c.isDigit || c == ':'
  let rest := match cs.drop clock.length with
    | '.' :: more => more.dropWhile Char.isDigit
    | rest => rest
  (match Text.splitChars ':' clock with
    | [hours, minutes, seconds] =>
      isShortNumber hours && isLongNumber 2 minutes && isLongNumber 2 seconds
    | _ => false) &&
  isZone (rest.dropWhile isDateBlank)

/-- Whether the text is a date: a day, or a day with a time of day behind it. -/
def isDate (cs : List Char) : Bool :=
  let day := cs.takeWhile fun c => c.isDigit || c == '-'
  match Text.splitChars '-' day, cs.drop day.length with
  | [year, month, day], [] => isLongNumber 4 year && isLongNumber 2 month && isLongNumber 2 day
  | [year, month, day], separator :: rest =>
    isLongNumber 4 year && isShortNumber month && isShortNumber day &&
      if separator = 't' ∨ separator = 'T' then isClock rest
      else isDateBlank separator && isClock (rest.dropWhile isDateBlank)
  | _, _ => false

/-! ### Resolution -/

/-- The words for the truth values. -/
def boolWords : List (String × Bool) :=
  [("yes", true), ("Yes", true), ("YES", true), ("no", false), ("No", false), ("NO", false),
    ("true", true), ("True", true), ("TRUE", true), ("false", false), ("False", false),
    ("FALSE", false), ("on", true), ("On", true), ("ON", true), ("off", false), ("Off", false),
    ("OFF", false)]

/-- The words for no value. -/
def nullWords : List String := ["", "~", "null", "Null", "NULL"]

/-- What a scalar without quotes stands for. -/
def ofPlain (s : String) : Scalar :=
  if nullWords.contains s then null
  else
    match boolWords.lookup s with
    | some b => bool b
    | none =>
      match float? s.toList with
      | some x => float x
      | none =>
        match int? s.toList with
        | some n => int n
        | none => if isDate s.toList then date s else text s

end Scalar

end Requirements
