import Hotswap.Decimal.Binary64

/-!
# Shortest decimal text of a double precision number

A finite positive number is the centre of the interval of reals that round to it. Among the
multiples of powers of ten in that interval the text shows one of the coarsest power, the nearest
to the number, and of two equally near ones the larger. It is written without an exponent and
without needless zeros.
-/

namespace Hotswap.Decimal

/-- An interval around a number, on the common denominator `den`; the ends belong to it when
`closed`. -/
structure Interval where
  low : Nat
  centre : Nat
  high : Nat
  den : Nat
  closed : Bool
  deriving Repr

/-- The reals that round to the size of a finite number which is not zero: a quarter of the last
binary place is the unit, and ties go to the even significand. -/
def Interval.of (a : Binary64) : Interval :=
  let unit := Nat.pow 2 a.scale
  let m := a.significand
  ⟨(4 * m - if a.narrowBelow then 1 else 2) * unit, 4 * m * unit, (4 * m + 2) * unit,
    Nat.pow 2 1076, m % 2 == 0⟩

/-- A decimal `digits · 10 ^ (place - 324)`. -/
structure Scaled where
  digits : Nat
  place : Nat
  deriving DecidableEq, Repr

/-- The numerator of a multiple of a power of ten on the interval's denominator, both multiplied
by `10 ^ 324`. -/
def Interval.numerator (i : Interval) (s : Scaled) : Nat := s.digits * Nat.pow 10 s.place * i.den

/-- Tells whether a decimal lies in the interval. -/
def Interval.holds (i : Interval) (s : Scaled) : Bool :=
  let n := i.numerator s
  let low := i.low * Nat.pow 10 324
  let high := i.high * Nat.pow 10 324
  if i.closed then low ≤ n && n ≤ high else low < n && n < high

/-- The decimal of one place nearest to the centre among those in the interval, the larger of two
equally near ones. Only the neighbours of the centre can be in the interval. -/
def Interval.pick? (i : Interval) (place : Nat) : Option Scaled :=
  let centre := i.centre * Nat.pow 10 324
  let below : Scaled := ⟨centre / (Nat.pow 10 place * i.den), place⟩
  let above : Scaled := ⟨below.digits + 1, place⟩
  match i.holds below, i.holds above with
  | true, true =>
    if centre - i.numerator below < i.numerator above - centre then some below else some above
  | true, false => some below
  | false, true => some above
  | false, false => none

/-- The pick of the coarsest place below `place` that has one. -/
def Interval.coarsest? (i : Interval) : Nat → Option Scaled
  | 0 => none
  | place + 1 =>
    match i.pick? place with
    | some s => some s
    | none => i.coarsest? place

/-- The shortest decimal that reads back as a finite number which is not zero. No such number
reaches `10 ^ 309`. -/
def shortest (a : Binary64) : Scaled :=
  ((Interval.of a).coarsest? (310 + 324)).getD ⟨0, 0⟩

/-- Cuts the zeros off the back. -/
def dropTrailingZeros (cs : List Char) : List Char := (cs.reverse.dropWhile (· == '0')).reverse

/-- Writes a decimal without an exponent. -/
def Scaled.positional (s : Scaled) : String :=
  let digits := Nat.toDigits 10 s.digits
  if 324 ≤ s.place then String.ofList (digits ++ List.replicate (s.place - 324) '0')
  else
    let width := 324 - s.place
    let padded := List.replicate (width + 1 - digits.length) '0' ++ digits
    let whole := padded.take (padded.length - width)
    let rest := dropTrailingZeros (padded.drop (padded.length - width))
    if rest.isEmpty then String.ofList whole else String.ofList (whole ++ '.' :: rest)

/-- The text of a double precision number. -/
def text (a : Binary64) : String :=
  if a.isNaN then "NaN"
  else
    let sign := if a.isNegative then "-" else ""
    if a.isInfinite then sign ++ "inf"
    else if a.isZero then sign ++ "0"
    else sign ++ (shortest a).positional

end Hotswap.Decimal
