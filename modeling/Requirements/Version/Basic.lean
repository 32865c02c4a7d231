/-!
# Versions and their order

A version is a sequence of components, each a number or a suffix such as `b2`. Versions are
compared component by component, a missing component counting as the number `0`, so `1.0` and `1`
are equal versions with different texts. A number comes before a suffix.

A number may have any number of digits. Some hosts refuse to convert long numbers to texts or back,
unless they are told otherwise; such a limit is no part of what a version is, and there is none
here.
-/

namespace Requirements

namespace Version

/-- One component of a version. -/
inductive Component where
  | number (value : Nat)
  | suffix (text : String)
deriving DecidableEq, Repr

namespace Component

/-- Numbers are ordered by value, suffixes by code point, and a number precedes a suffix. -/
def order : Component → Component → Ordering
  | number m, number n => compare m n
  | number _, suffix _ => .lt
  | suffix _, number _ => .gt
  | suffix s, suffix t => compare s t

/-- The value of a number, and nothing for a suffix. -/
def number? : Component → Option Nat
  | number n => some n
  | suffix _ => none

/-- The text of a suffix, and nothing for a number. -/
def suffix? : Component → Option String
  | number _ => none
  | suffix s => some s

end Component

open Component

/-- The order of a sequence of zeros and a component sequence. -/
def orderZeros : List Component → Ordering
  | [] => .eq
  | b :: bs => ((number 0).order b).then (orderZeros bs)

/-- The order of two component sequences, the shorter one continued with zeros. -/
def orderComponents : List Component → List Component → Ordering
  | [], bs => orderZeros bs
  | a :: as, [] => (a.order (number 0)).then (orderComponents as [])
  | a :: as, b :: bs => (a.order b).then (orderComponents as bs)

/-- The components without the zeros at the end. -/
def trimZeros (components : List Component) : List Component :=
  (components.reverse.dropWhile (· == number 0)).reverse

end Version

/-- A version, with the text it was read from, which is empty for one that was not read. -/
structure Version where
  components : List Version.Component
  text : String
deriving DecidableEq, Repr

namespace Version

/-- The order of versions, in which the text plays no part. -/
def order (v w : Version) : Ordering :=
  orderComponents v.components w.components

/-- The version `v` comes before `w`. -/
def before (v w : Version) : Bool :=
  v.order w == .lt

/-- The versions `v` and `w` are equal as versions. -/
def same (v w : Version) : Bool :=
  v.order w == .eq

/-- The components with the zeros at the end left out. Equal versions have equal keys. -/
def key (v : Version) : List Component :=
  trimZeros v.components

/-- The version with the same key that carries no zeros at the end and no text. -/
def canonical (v : Version) : Version :=
  ⟨v.key, ""⟩

/-- How components are written when there is no text to go by: the numbers joined by points, then
the suffixes. -/
def textOfComponents (components : List Component) : String :=
  ".".intercalate ((components.filterMap Component.number?).map toString) ++
    "".intercalate (components.filterMap Component.suffix?)

/-- The text of a version. -/
def toText (v : Version) : String :=
  if v.text = "" then textOfComponents v.components else v.text

/-- The versions in increasing order, equal ones in the order given. -/
def sort (versions : List Version) : List Version :=
  versions.mergeSort fun v w => !w.before v

/-- The first of the greatest versions of a list. -/
def maximum? : List Version → Option Version
  | [] => none
  | v :: vs => some (vs.foldl (fun best w => if best.before w then w else best) v)

/-- How many different versions a list holds. -/
def distinct (versions : List Version) : Nat :=
  (versions.map key).eraseDups.length

end Version

end Requirements
