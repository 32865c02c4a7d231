/-!
# Shortest decimals

A binary floating-point number stands for all the real numbers that round to it. Its shortest
decimal is the one with the fewest digits among them, and of those the nearest to the number
itself. For each count of digits only two decimals come into question, the neighbours of the number
on the grid of decimals with that many digits.
-/

namespace Requirements

namespace Decimal

/-- A power of two. -/
def twoTo (n : Nat) : Nat := Nat.pow 2 n

/-- A power of ten. -/
def tenTo (n : Nat) : Nat := Nat.pow 10 n

/-- A positive rational number together with the ends of the interval of numbers that round to it,
over one denominator. The ends belong to the interval when `closed` holds. -/
structure Rounding where
  low : Nat
  value : Nat
  high : Nat
  denominator : Nat
  closed : Bool
deriving DecidableEq, Repr

/-- The number `mantissa * 2 ^ exponent`. Where the spacing of the numbers changes, the neighbour
below stands at half the distance of the one above, and `narrow` holds. -/
def Rounding.ofBinary (mantissa : Nat) (exponent : Int) (narrow : Bool) : Rounding :=
  let scale := exponent - 2
  let up := twoTo scale.toNat
  { low := (4 * mantissa - (if narrow then 1 else 2)) * up
    value := 4 * mantissa * up
    high := (4 * mantissa + 2) * up
    denominator := twoTo (-scale).toNat
    closed := mantissa % 2 == 0 }

/-- A decimal in scientific form: the digits `digits`, with the point behind the first of them,
times `10 ^ exponent`. -/
structure Scientific where
  digits : Nat
  exponent : Int
deriving DecidableEq, Repr

namespace Rounding

/-- Whether `n / d` rounds to the number, given the ends of the interval over the same scale. -/
def within (r : Rounding) (low n high : Nat) : Bool :=
  if r.closed then low ≤ n && n ≤ high else low < n && n < high

/-- How often a number below one has to be multiplied by ten to reach one. -/
def leadingZeros (denominator : Nat) : Nat → Nat → Nat
  | 0, _ => 0
  | fuel + 1, n => if denominator ≤ n then 0 else leadingZeros denominator fuel (10 * n) + 1

/-- The exponent of the number in scientific form. -/
def exponent (r : Rounding) : Int :=
  if r.denominator ≤ r.value then
    ((Nat.toDigits 10 (r.value / r.denominator)).length : Int) - 1
  else -(leadingZeros r.denominator 400 r.value : Int)

/-- The decimal with `count` digits that rounds to the number and is nearest to it, if there is one.
Of two equally near ones the even one is taken. -/
def withDigits? (r : Rounding) (count : Nat) : Option Scientific :=
  let e := r.exponent
  let step := e + 1 - count
  let unit := r.denominator * tenTo step.toNat
  let shift := tenTo (-step).toNat
  let below := r.value * shift / unit
  let hits := fun n : Nat => r.within (r.low * shift) (n * unit) (r.high * shift)
  let decimal := fun n : Nat =>
    if n = tenTo count then (⟨tenTo (count - 1), e + 1⟩ : Scientific) else ⟨n, e⟩
  if hits below && hits (below + 1) then
    let down := r.value * shift - below * unit
    let up := (below + 1) * unit - r.value * shift
    if down < up || (down == up && below % 2 == 0) then some (decimal below)
    else some (decimal (below + 1))
  else if hits below then some (decimal below)
  else if hits (below + 1) then some (decimal (below + 1))
  else none

/-- The shortest decimal of the number. Seventeen digits always suffice. -/
def shortest (r : Rounding) : Scientific :=
  ((List.range 17).findSome? fun n => r.withDigits? (n + 1)).getD ⟨0, 0⟩

end Rounding

/-- How a decimal is written: with a point at its place from `lowest` up to below `highest`, in
scientific form outside these exponents, the exponent then having at least `exponentDigits`
digits. -/
structure Style where
  lowest : Int
  highest : Int
  exponentDigits : Nat

/-- Small and large numbers are written in scientific form, the others with a point and at least one
digit on either side of it. -/
def Style.plain : Style := ⟨-4, 16, 2⟩

namespace Scientific

/-- The text of a decimal. -/
def format (style : Style) (d : Scientific) : String :=
  let digits := Nat.toDigits 10 d.digits
  if style.lowest ≤ d.exponent ∧ d.exponent < style.highest then
    if d.exponent < 0 then
      "0." ++ String.ofList (List.replicate (-d.exponent - 1).toNat '0' ++ digits)
    else
      let whole := d.exponent.toNat + 1
      let padded := digits ++ List.replicate (whole - digits.length) '0'
      let fraction := digits.drop whole
      String.ofList (padded.take whole) ++ "." ++
        (if fraction.isEmpty then "0" else String.ofList fraction)
  else
    let fraction := digits.drop 1
    let power := Nat.toDigits 10 d.exponent.natAbs
    String.ofList (digits.take 1) ++
      (if fraction.isEmpty then "" else "." ++ String.ofList fraction) ++
      (if d.exponent < 0 then "e-" else "e+") ++
      String.ofList (List.replicate (style.exponentDigits - power.length) '0' ++ power)

end Scientific

/-- The shortest text that reads back as `x`. -/
def shortestText (x : Float) : String :=
  if x.isNaN then "nan"
  else
    let bits := x.toBits.toNat
    let sign := if bits / twoTo 63 = 1 then "-" else ""
    let biased := bits / twoTo 52 % twoTo 11
    let fraction := bits % twoTo 52
    if biased = 2047 then sign ++ "inf"
    else if biased = 0 ∧ fraction = 0 then sign ++ "0.0"
    else
      let mantissa := if biased = 0 then fraction else twoTo 52 + fraction
      let exponent : Int := (max biased 1 : Nat) - 1075
      let narrow := fraction == 0 && 1 < biased
      sign ++ (Rounding.ofBinary mantissa exponent narrow).shortest.format .plain

end Decimal

end Requirements
