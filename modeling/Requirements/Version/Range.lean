import Requirements.Version.Basic

/-!
# Ranges of versions and sets of ranges

A range is a closed interval of versions that may be open on either side and may be negated. A
version set is a list of ranges in which later ranges override earlier ones: the last range that
covers a version decides whether the set holds it.
-/

namespace Requirements

namespace Version

/-- A closed interval of versions; a missing bound leaves its side open. -/
structure Range where
  low : Option Version
  high : Option Version
  negated : Bool
deriving DecidableEq, Repr

namespace Range

/-- Whether `v` lies in the interval, whatever the negation says. -/
def covers (r : Range) (v : Version) : Bool :=
  r.low.all (fun low => !v.before low) && r.high.all (fun high => !high.before v)

/-- Whether `v` lies in the range. -/
def contains (r : Range) (v : Version) : Bool :=
  r.covers v != r.negated

/-- Whether the bounds are out of order, so that no version can lie between them. -/
def isEmpty (r : Range) : Bool :=
  match r.low, r.high with
  | some low, some high => high.before low
  | _, _ => false

/-- The text of the bounds. A range whose bounds are equal is written as a single version. -/
def boundsText (r : Range) : String :=
  match r.low, r.high with
  | some low, some high =>
    if low.same high then low.toText else low.toText ++ "-" ++ high.toText
  | some low, none => low.toText ++ "-"
  | none, some high => "-" ++ high.toText
  | none, none => "-"

/-- The text of a range. -/
def toText (r : Range) : String :=
  (if r.negated then "!" else "") ++ r.boundsText

/-- The range with the same bounds, each in canonical form. -/
def canonical (r : Range) : Range :=
  ⟨r.low.map Version.canonical, r.high.map Version.canonical, r.negated⟩

end Range

/-- An ordered list of ranges. -/
structure RangeSet where
  ranges : List Range
deriving DecidableEq, Repr

namespace RangeSet

/-- Whether the set holds `v`: the last range that covers it decides, and a version that no range
covers is left out. -/
def accepts (s : RangeSet) (v : Version) : Bool :=
  s.ranges.foldl (fun verdict r => if r.covers v then !r.negated else verdict) false

/-- The text of a set: its ranges between brackets. -/
def toText (s : RangeSet) : String :=
  "[" ++ " ".intercalate (s.ranges.map Range.toText) ++ "]"

/-- The set with every range in canonical form. -/
def canonical (s : RangeSet) : RangeSet :=
  ⟨s.ranges.map Range.canonical⟩

end RangeSet

end Version

end Requirements
