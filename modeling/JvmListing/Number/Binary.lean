/-
# Binary floating-point numbers

Values of the two binary interchange formats a class file stores: `single` with
24 bits of precision and `double` with 53.  A value is `nan`, of which there is
one, or a sign with a magnitude.  Magnitudes are counted: 0 is zero, 1 the least
positive number, and each further one is the next number up, until `infinity`.
That count is the stored word without its sign bit.

A magnitude below infinity is the real number `significand * 2 ^ unit`, and
`nearestMagnitude` rounds any fraction to the nearest one, a tie going to the
even significand.  All arithmetic is exact and on natural numbers.
-/

namespace JvmListing

-- Powers of natural numbers are `Nat.pow`, whatever algebra is in scope.
attribute [local instance (high)] instPowNat

/-- A binary interchange format. -/
structure BinaryFormat where
  /-- Bits of the significand, the leading one included. -/
  precision : Nat
  /-- Bits of the stored exponent. -/
  exponentBits : Nat
  deriving DecidableEq, Repr

namespace BinaryFormat

def single : BinaryFormat := ⟨24, 8⟩

def double : BinaryFormat := ⟨53, 11⟩

/-- How many magnitudes share one unit in the last place. -/
def binade (f : BinaryFormat) : Nat := 2 ^ (f.precision - 1)

/-- The magnitude of infinity. -/
def infinity (f : BinaryFormat) : Nat := (2 ^ f.exponentBits - 1) * f.binade

/-- The greatest exponent of a finite number, which is also the exponent bias. -/
def bias (f : BinaryFormat) : Nat := 2 ^ (f.exponentBits - 1) - 1

/-- The exponent of the least positive number. -/
def leastUnit (f : BinaryFormat) : Int := 2 - (f.bias : Int) - (f.precision : Int)

/-- The significand of a magnitude below infinity. -/
def significand (f : BinaryFormat) (magnitude : Nat) : Nat :=
  if magnitude < f.binade then magnitude else magnitude % f.binade + f.binade

/-- The exponent of the unit in the last place of a magnitude below infinity. -/
def unit (f : BinaryFormat) (magnitude : Nat) : Int :=
  f.leastUnit + ((magnitude / f.binade - 1 : Nat) : Int)

end BinaryFormat

/-- The integer nearest to `n / d`, a tie going to the even one. -/
def roundHalfEven (n d : Nat) : Nat :=
  let q := n / d
  let r := n % d
  if d < 2 * r ∨ (2 * r = d ∧ q % 2 = 1) then q + 1 else q

/-- The fraction `n / d * 2 ^ e` as numerator and denominator. -/
def scaleByTwo (n d : Nat) (e : Int) : Nat × Nat :=
  if e < 0 then (n, d * 2 ^ (-e).toNat) else (n * 2 ^ e.toNat, d)

/-- The fraction `n * 10 ^ e` as numerator and denominator. -/
def scaleByTen (n : Nat) (e : Int) : Nat × Nat :=
  if e < 0 then (n, 10 ^ (-e).toNat) else (n * 10 ^ e.toNat, 1)

/-- The greatest `e` with `2 ^ e ≤ n / d`, for a positive fraction. -/
def floorLogTwo (n d : Nat) : Int :=
  let e : Int := (n.log2 : Int) - (d.log2 : Int)
  let (n', d') := scaleByTwo n d (-e)
  if d' ≤ n' then e else e - 1

/-- The magnitude nearest to the positive fraction `n / d`, a tie going to the
even significand.  What lies past the greatest finite number is infinite. -/
def nearestMagnitude (f : BinaryFormat) (n d : Nat) : Nat :=
  let unit := max (floorLogTwo n d + 1 - f.precision) f.leastUnit
  let (n', d') := scaleByTwo n d (-unit)
  min ((unit - f.leastUnit).toNat * f.binade + roundHalfEven n' d') f.infinity

/-- A number of a binary format: one not-a-number, or a sign and a magnitude. -/
inductive Binary (f : BinaryFormat) where
  | nan
  | number (negative : Bool) (magnitude : Nat) (bounded : magnitude ≤ f.infinity)
  deriving DecidableEq

abbrev Single := Binary .single

abbrev Double := Binary .double

namespace Binary

variable {f : BinaryFormat}

/-- The number with a sign and a magnitude, infinite from `infinity` on. -/
def ofMagnitude (negative : Bool) (magnitude : Nat) : Binary f :=
  .number negative (min magnitude f.infinity) (Nat.min_le_right ..)

def infinite (negative : Bool) : Binary f := .number negative f.infinity (Nat.le_refl _)

/-- The number nearest to `digits * 10 ^ exponent`.  Exponents that alone decide
for infinity or zero are settled first, so no power is taken of a huge exponent. -/
def ofDecimal (negative : Bool) (digits : Nat) (exponent : Int) : Binary f :=
  let size : Int := (Nat.toDigits 10 digits).length
  if digits = 0 then ofMagnitude negative 0
  else if size + exponent > f.bias + 2 then infinite negative
  else if size + exponent < -((f.bias : Int) + f.precision) then ofMagnitude negative 0
  else
    let (n, d) := scaleByTen digits exponent
    ofMagnitude negative (nearestMagnitude f n d)

/-- The stored word of a number. -/
def toBits : Binary f → Nat
  | .nan => f.infinity + f.binade / 2
  | .number negative magnitude _ =>
    if negative then 2 ^ (f.exponentBits + f.precision - 1) + magnitude else magnitude

/-- The number of a stored word: every word past infinity is not a number. -/
def ofBits (bits : Nat) : Binary f :=
  let sign := 2 ^ (f.exponentBits + f.precision - 1)
  let magnitude := bits % sign
  if h : magnitude ≤ f.infinity then .number (bits / sign % 2 == 1) magnitude h else .nan

end Binary

end JvmListing
