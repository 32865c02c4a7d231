import Requirements.Text.Blank
import Requirements.Text.Quoted
import Requirements.Text.Word
import Requirements.Version.Range

/-!
# Reading versions and ranges

A version literal is made of groups of digits joined by points, followed by an optional suffix that
starts with a letter or an underscore. A version text is such a literal, after an optional `v`. A
range text is one of `V`, `V-`, `-V`, `V-W` and `-`, after an optional `!`. Blanks at either end do
not count.

Every group of digits is read as the number that it writes, however long it is: reading assumes that
the conversion from a text to an integer has no limit on the number of digits.
-/

namespace Requirements

namespace Version

open Text

/-- The value of an ASCII digit. -/
def digitValue (c : Char) : Nat :=
  c.toNat - '0'.toNat

/-- Reads digit groups. The digits read so far of the current group have the value `n`; a point
belongs to the number only if a digit follows it. -/
def numbersFrom (n : Nat) : List Char → List Nat × List Char
  | [] => ([n], [])
  | '.' :: d :: cs =>
    if isDigit d then
      let (more, rest) := numbersFrom (digitValue d) cs
      (n :: more, rest)
    else ([n], '.' :: d :: cs)
  | c :: cs =>
    if isDigit c then numbersFrom (10 * n + digitValue c) cs
    else ([n], c :: cs)

/-- The suffix that a text starts with, if there is one, and the rest. -/
def suffixOf : List Char → List Component × List Char
  | [] => ([], [])
  | c :: cs =>
    if isNameStart c then
      ([.suffix (String.ofList (c :: cs.takeWhile isSuffixChar))], cs.dropWhile isSuffixChar)
    else ([], c :: cs)

/-- The components of the longest version literal that a text starts with, and the rest. -/
def literalFrom? : List Char → Option (List Component × List Char)
  | [] => none
  | c :: cs =>
    if isDigit c then
      let (numbers, afterNumbers) := numbersFrom (digitValue c) cs
      let (suffixes, rest) := suffixOf afterNumbers
      some (numbers.map .number ++ suffixes, rest)
    else none

/-- The version that a text writes as a literal, from its first to its last character. -/
def literal? (cs : List Char) : Option Version :=
  match literalFrom? cs with
  | some (components, []) => some ⟨components, String.ofList cs⟩
  | _ => none

/-- Takes the `v` off a version text. -/
def dropMark : List Char → List Char
  | 'v' :: cs => cs
  | cs => cs

/-- The version that a text stands for. Its text is the one read, without blanks around it. -/
def ofText? (s : String) : Option Version :=
  let cs := trimBlanks s.toList
  (literal? (dropMark cs)).map fun v => { v with text := String.ofList cs }

/-- A bound of a range: nothing, or a version literal. -/
def bound? : List Char → Option (Option Version)
  | [] => some none
  | cs => (literal? cs).map some

namespace Range

/-- The bounds that a range text writes, its negation apart. A text without a hyphen is a version
and gives both bounds. -/
def bounds? (cs : List Char) : Option (Option Version × Option Version) :=
  match cs.dropWhile (· != '-') with
  | [] => (literal? cs).map fun v => (some v, some v)
  | _ :: high =>
    match bound? (cs.takeWhile (· != '-')), bound? high with
    | some low, some high => some (low, high)
    | _, _ => none

/-- The range that a text without blanks around it stands for. -/
def ofChars? : List Char → Option Range
  | '!' :: cs => (bounds? cs).map fun b => ⟨b.1, b.2, true⟩
  | cs => (bounds? cs).map fun b => ⟨b.1, b.2, false⟩

/-- The range that a text stands for. -/
def ofText? (s : String) : Option Range :=
  ofChars? (trimBlanks s.toList)

end Range

/-- A text that was to be read and has another form. -/
inductive Malformed where
  | version (text : String)
  | range (text : String)
deriving DecidableEq, Repr

namespace Malformed

/-- What is wrong, in words. -/
def message : Malformed → String
  | version text => "Malformed version: " ++ quoted text
  | range text => "Malformed version range: " ++ quoted text

end Malformed

/-- Reads a version text. -/
def parse (s : String) : Except Malformed Version :=
  match ofText? s with
  | some v => .ok v
  | none => .error (.version s)

/-- Reads a range text. -/
def Range.parse (s : String) : Except Malformed Range :=
  match Range.ofText? s with
  | some r => .ok r
  | none => .error (.range s)

end Version

end Requirements
