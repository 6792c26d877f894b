/-
# Decimal text of binary numbers

`Binary.shortest` finds the decimal with the fewest digits that reads back as
the same number: for one digit, two digits and so on it tries the two
neighbours of the number on that decimal grid, and takes the first that
`Binary.ofDecimal` sends back.  If both do, the nearer one is taken, and the
upper one if they are equally near.  Should the search end without a hit, the
exact decimal expansion is used, which every binary number has.

`DecimalStyle` says how such a decimal is laid out.
-/
import JvmListing.Number.Binary

namespace JvmListing

-- Powers of natural numbers are `Nat.pow`, whatever algebra is in scope.
attribute [local instance (high)] instPowNat

/-- A decimal `digits * 10 ^ exponent`. -/
structure Decimal where
  digits : Nat
  exponent : Int
  deriving DecidableEq, Repr

namespace Decimal

/-- The decimal without trailing zeros, in at most `fuel` steps. -/
def stripZeros : Nat → Decimal → Decimal
  | 0, d => d
  | fuel + 1, d =>
    if d.digits ≠ 0 ∧ d.digits % 10 = 0 then
      stripZeros fuel ⟨d.digits / 10, d.exponent + 1⟩
    else d

/-- The decimal digits of the coefficient. -/
def digitChars (d : Decimal) : List Char := Nat.toDigits 10 d.digits

end Decimal

/-- The greatest `e` with `10 ^ e ≤ n / d`, for a positive fraction. -/
def floorLogTen (n d : Nat) : Int :=
  if d ≤ n then (Nat.toDigits 10 (n / d)).length - 1
  else
    let e : Nat := (Nat.toDigits 10 (d / n)).length - 1
    if n * 10 ^ e = d then -(e : Int) else -(e : Int) - 1

namespace BinaryFormat

/-- A number of decimal digits that tells all numbers of the format apart. -/
def enoughDigits (f : BinaryFormat) : Nat := f.precision * 30103 / 100000 + 2

/-- The positive real number of a finite magnitude, as a fraction. -/
def fraction (f : BinaryFormat) (magnitude : Nat) : Nat × Nat :=
  scaleByTwo (f.significand magnitude) 1 (f.unit magnitude)

/-- The decimal equal to a finite magnitude. -/
def exactDecimal (f : BinaryFormat) (magnitude : Nat) : Decimal :=
  let unit := f.unit magnitude
  if unit < 0 then ⟨f.significand magnitude * 5 ^ (-unit).toNat, unit⟩
  else ⟨f.significand magnitude * 2 ^ unit.toNat, 0⟩

/-- Does the decimal read back as the magnitude? -/
def readsBack (f : BinaryFormat) (magnitude : Nat) (d : Decimal) : Bool :=
  (Binary.ofDecimal false d.digits d.exponent : Binary f) == .ofMagnitude false magnitude

/-- The neighbour of a magnitude on a decimal grid that reads back as it: the
nearer one if both do, the upper one if they are equally near. -/
def onGrid? (f : BinaryFormat) (magnitude : Nat) (exponent : Int) : Option Decimal :=
  let (n, d) := f.fraction magnitude
  let (n', d') :=
    if exponent < 0 then (n * 10 ^ (-exponent).toNat, d) else (n, d * 10 ^ exponent.toNat)
  let lower : Decimal := ⟨n' / d', exponent⟩
  let upper : Decimal := ⟨n' / d' + 1, exponent⟩
  match f.readsBack magnitude lower, f.readsBack magnitude upper with
  | true, true => some (if 2 * (n' % d') < d' then lower else upper)
  | true, false => some lower
  | false, true => some upper
  | false, false => none

/-- The shortest decimal of `size` digits or more, with `tries` sizes to try. -/
def shortestFrom (f : BinaryFormat) (magnitude : Nat) (top : Int) : Nat → Nat → Decimal
  | 0, _ => f.exactDecimal magnitude
  | tries + 1, size =>
    match f.onGrid? magnitude (top + 1 - size) with
    | some d => d
    | none => f.shortestFrom magnitude top tries (size + 1)

/-- The decimal with the fewest digits that reads back as a positive finite
magnitude, without trailing zeros. -/
def shortest (f : BinaryFormat) (magnitude : Nat) : Decimal :=
  let (n, d) := f.fraction magnitude
  let found := f.shortestFrom magnitude (floorLogTen n d) f.enoughDigits 1
  found.stripZeros found.digitChars.length

end BinaryFormat

/-- How a finite decimal is laid out. -/
structure DecimalStyle where
  /-- The least exponent of the leading digit that is written positionally. -/
  leastPositional : Int
  /-- The greatest exponent of the leading digit that is written positionally. -/
  greatestPositional : Int

namespace DecimalStyle

/-- A positive decimal with its point among the digits; a whole number keeps `.0`. -/
def positional (digits : List Char) (exponent : Int) : List Char :=
  let whole : Int := digits.length + exponent
  if 0 ≤ exponent then digits ++ List.replicate exponent.toNat '0' ++ ['.', '0']
  else if 0 < whole then digits.take whole.toNat ++ '.' :: digits.drop whole.toNat
  else '0' :: '.' :: List.replicate (-whole).toNat '0' ++ digits

/-- A positive decimal as one leading digit, the others after a point, and the
exponent of the leading digit. -/
def scientific (digits : List Char) (leading : Int) : List Char :=
  let tail := if digits.length ≤ 1 then digits else digits.take 1 ++ '.' :: digits.drop 1
  tail ++ 'e' :: (if leading < 0 then ['-'] else []) ++ Nat.toDigits 10 leading.natAbs

/-- The text of a positive decimal. -/
def write (style : DecimalStyle) (d : Decimal) : List Char :=
  let leading : Int := d.digitChars.length + d.exponent - 1
  if style.leastPositional ≤ leading ∧ leading ≤ style.greatestPositional then
    positional d.digitChars d.exponent
  else scientific d.digitChars leading

end DecimalStyle

/-- Numbers from a ten-thousandth up to sixteen places before the point are
written positionally. -/
def listingDecimals : DecimalStyle := ⟨-4, 15⟩

/-- The text of a number: `NaN`, `Infinity`, or the shortest decimal that reads
back, with a sign where the number has one. -/
def Binary.text {f : BinaryFormat} : Binary f → List Char
  | .nan => "NaN".toList
  | .number negative magnitude _ =>
    let unsigned :=
      if magnitude = f.infinity then "Infinity".toList
      else if magnitude = 0 then "0.0".toList
      else listingDecimals.write (f.shortest magnitude)
    if negative then '-' :: unsigned else unsigned

end JvmListing
