import RhythmChart.Scalar
import RhythmChart.Text

/-!
# Decimal numbers

A numeral is an optional sign, digits with an optional point and at least one digit on either side of
it, and an optional exponent.  `Decimal.ofText?` reads it exactly, `Decimal.toFloat` rounds it once, to
the nearest binary64 number.

`Places.text` writes the exact value of a binary64 number with a set number of places.  The last place
is rounded to nearest, a half to the even neighbour.
-/

namespace RhythmChart

/-! ## Numerals -/

/-- The exact value `± digits * 10 ^ exponent`. -/
structure Decimal where
  negative : Bool
  /-- All digits, without the point. -/
  digits : Nat
  exponent : Int
  deriving DecidableEq

namespace Decimal

/-- An optional sign and the rest: whether it is a minus sign. -/
def takeSign : List Char → Bool × List Char
  | '+' :: s => (false, s)
  | '-' :: s => (true, s)
  | s => (false, s)

def ofDigits (ds : List Char) : Nat := ds.foldl (fun n d => 10 * n + (d.toNat - 48)) 0

/-- Digits up to the first other character, and the rest. -/
def takeDigits (s : List Char) : List Char × List Char :=
  (s.takeWhile Char.isDigit, s.dropWhile Char.isDigit)

/-- The fraction digits after a point, and the rest; no point means no digits. -/
def takeFraction : List Char → List Char × List Char
  | '.' :: s => takeDigits s
  | s => ([], s)

/-- The exponent at the end of a numeral.  Its mark calls for at least one digit. -/
def exponent? : List Char → Option Int
  | [] => some 0
  | c :: s =>
    let (negative, ds) := takeSign s
    if (c = 'e' ∨ c = 'E') ∧ ds ≠ [] ∧ ds.all Char.isDigit = true then
      some (if negative then -(ofDigits ds : Int) else ofDigits ds)
    else none

/-- Reads a whole text as a numeral. -/
def ofText? (s : List Char) : Option Decimal :=
  let (negative, s) := takeSign s
  let (whole, s) := takeDigits s
  let (fraction, s) := takeFraction s
  if whole ++ fraction = [] then none
  else (exponent? s).map fun e => ⟨negative, ofDigits (whole ++ fraction), e - fraction.length⟩

/-- The binary64 number nearest to `digits * 10 ^ exponent`.  Exponents far outside the range of
binary64 are decided without forming the power of ten. -/
def magnitude (digits : Nat) (exponent : Int) : Float :=
  if digits = 0 then 0
  else if 310 ≤ exponent then 1 / 0
  else if exponent < -(400 + (digits.log2 : Int)) then 0
  else Float.ofScientific digits (decide (exponent < 0)) exponent.natAbs

/-- The nearest binary64 number, an infinity beyond the greatest one. -/
def toFloat (d : Decimal) : Float :=
  if d.negative then -magnitude d.digits d.exponent else magnitude d.digits d.exponent

/-- Reads a numeral between blanks as a finite number. -/
def finite? (s : List Char) : Option (Finite Float) :=
  (ofText? (Text.trim s)).bind fun d => Finite.of? d.toFloat

end Decimal

/-! ## A fixed number of places -/

namespace Places

/-- The integer nearest to `num / den`, on a tie the even one. -/
def roundDiv (num den : Nat) : Nat :=
  let q := num / den
  match compare (2 * (num % den)) den with
  | .lt => q
  | .gt => q + 1
  | .eq => q + q % 2

/-- The size of a finite number in units of the last of `places` decimal places. -/
def units (places : Nat) (p : Binary64.Parts) : Nat :=
  roundDiv ((p.significand * Nat.pow 10 places) <<< p.exponent.toNat) (1 <<< (-p.exponent).toNat)

/-- The digits of a number of units, with a point before the last `places` of them. -/
def layout (places n : Nat) : List Char :=
  let digits := Text.padLeft (places + 1) '0' (toString n).toList
  let whole := digits.length - places
  if places = 0 then digits else digits.take whole ++ '.' :: digits.drop whole

/-- The number with a fixed number of places.  A number that rounds to zero keeps its sign. -/
def text (places : Nat) (x : Float) : List Char :=
  let p := Binary64.parts x
  if x.isNaN then "NaN".toList
  else
    let size := if x.isInf then "inf".toList else layout places (units places p)
    if p.negative then '-' :: size else size

/-- The number with a fixed number of places, set to the right of a field of some width. -/
def field (width places : Nat) (x : Float) : List Char := Text.padLeft width ' ' (text places x)

end Places

end RhythmChart
