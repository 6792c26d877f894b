/-
# Numeric literals

The spelling of a number decides its kind: a final `L` makes a long; `0x` reads
hexadecimal digits; otherwise a final `F` makes a float, and a final `D`, a
decimal point, an exponent, `NaN` or `Infinity` make a double.  All else is an
int.  Underscores may stand between the digits of an integer.  An integer that
does not fit its kind is refused, never wrapped.

`Number.read` gives the number or the kind whose conversion failed, and
`Number.text` writes a number so that `Number.read` gives it back.
-/
import JvmListing.Number.Decimal

namespace JvmListing

-- Powers of natural numbers are `Nat.pow`, whatever algebra is in scope.
attribute [local instance (high)] instPowNat

/-- The four kinds of numeric constants. -/
inductive NumberKind where
  | int | long | float | double
  deriving DecidableEq, Repr

def NumberKind.name : NumberKind → String
  | .int => "int"
  | .long => "long"
  | .float => "float"
  | .double => "double"

/-- A numeric constant. -/
inductive Number where
  | int (value : Int32)
  | long (value : Int64)
  | float (value : Single)
  | double (value : Double)
  deriving DecidableEq

/-- The 32-bit word of an integer, if it fits. -/
def int32? (v : Int) : Option Int32 :=
  if -2147483648 ≤ v ∧ v ≤ 2147483647 then some (Int32.ofInt v) else none

/-- The 64-bit word of an integer, if it fits. -/
def int64? (v : Int) : Option Int64 :=
  if -9223372036854775808 ≤ v ∧ v ≤ 9223372036854775807 then some (Int64.ofInt v) else none

/-! ## Digits -/

/-- The value of a hexadecimal digit of either case. -/
def hexValue? (c : Char) : Option Nat :=
  if '0' ≤ c ∧ c ≤ '9' then some (c.toNat - '0'.toNat)
  else if 'a' ≤ c ∧ c ≤ 'f' then some (c.toNat - 'a'.toNat + 10)
  else if 'A' ≤ c ∧ c ≤ 'F' then some (c.toNat - 'A'.toNat + 10)
  else none

/-- The value of a decimal digit. -/
def digitValue? (c : Char) : Option Nat :=
  if '0' ≤ c ∧ c ≤ '9' then some (c.toNat - '0'.toNat) else none

/-- The number that digits denote after the value `acc`. -/
def foldDigits (base : Nat) (value? : Char → Option Nat) : Nat → List Char → Option Nat
  | acc, [] => some acc
  | acc, c :: cs =>
    match value? c with
    | some v => foldDigits base value? (acc * base + v) cs
    | none => none

/-- The number that one or more decimal digits denote. -/
def readDigits? : List Char → Option Nat
  | [] => none
  | cs => foldDigits 10 digitValue? 0 cs

/-- The number that one or more hexadecimal digits denote; a plus may lead. -/
def readHex? : List Char → Option Nat
  | [] => none
  | ['+'] => none
  | '+' :: cs => foldDigits 16 hexValue? 0 cs
  | cs => foldDigits 16 hexValue? 0 cs

/-- Splits a sign off: is it a minus, and what follows. -/
def splitSign : List Char → Bool × List Char
  | '-' :: cs => (true, cs)
  | '+' :: cs => (false, cs)
  | cs => (false, cs)

def signed (negative : Bool) (n : Nat) : Int := if negative then -(n : Int) else n

/-- The integer that an optional sign and decimal digits denote. -/
def readInteger? (cs : List Char) : Option Int :=
  let (negative, digits) := splitSign cs
  (readDigits? digits).map (signed negative)

/-! ## Decimals -/

/-- The exponent part of a decimal, or zero when there is none. -/
def readExponent? : List Char → Option Int
  | [] => some 0
  | c :: cs => if c = 'e' ∨ c = 'E' then readInteger? cs else none

/-- An unsigned decimal: digits with an optional point, at least one digit in
all, and an optional exponent. -/
def readDecimal? (cs : List Char) : Option Decimal :=
  let whole := cs.takeWhile Char.isDigit
  let afterWhole := cs.dropWhile Char.isDigit
  let (places, rest) :=
    match afterWhole with
    | '.' :: r => (r.takeWhile Char.isDigit, r.dropWhile Char.isDigit)
    | r => ([], r)
  match readDigits? (whole ++ places), readExponent? rest with
  | some digits, some exponent => some ⟨digits, exponent - places.length⟩
  | _, _ => none

/-- The number of a binary format that a sign and an unsigned spelling denote. -/
def Binary.read? {f : BinaryFormat} (negative : Bool) (cs : List Char) : Option (Binary f) :=
  if cs = "NaN".toList then some .nan
  else if cs = "Infinity".toList then some (.infinite negative)
  else (readDecimal? cs).map fun d => .ofDecimal negative d.digits d.exponent

/-! ## Literals -/

/-- The text before a final character that `p` accepts. -/
def dropFinal? (p : Char → Bool) (cs : List Char) : Option (List Char) :=
  match cs.reverse with
  | c :: r => if p c then some r.reverse else none
  | [] => none

def isLongMark (c : Char) : Bool := c = 'L' || c = 'l'

def isFloatMark (c : Char) : Bool := c = 'F' || c = 'f'

def isDoubleMark (c : Char) : Bool := c = 'D' || c = 'd'

/-- The digits after `0x` or `0X`. -/
def hexBody? : List Char → Option (List Char)
  | '0' :: 'x' :: cs => some cs
  | '0' :: 'X' :: cs => some cs
  | _ => none

def withoutUnderscores (cs : List Char) : List Char := cs.filter (· ≠ '_')

/-- Is a word spelled like a number?  It starts with a digit or a point and a
digit, or it is `NaN` or `Infinity`, marks aside; a sign may lead. -/
def looksNumeric (text : String) : Bool :=
  let unsigned := (splitSign text.toList).2
  let bare := (unsigned.reverse.dropWhile fun c => isFloatMark c || isDoubleMark c).reverse
  match unsigned with
  | '.' :: cs => (cs.head?.map Char.isDigit).getD false
  | cs => (cs.head?.map Char.isDigit).getD false || bare == "NaN".toList
      || bare == "Infinity".toList

namespace Number

/-- A hexadecimal literal after its `0x`.  Its digits must fit 64 bits. -/
def readHexLiteral (negative : Bool) (body : List Char) : Except NumberKind Number :=
  let value? (digits : List Char) : Option Int :=
    match readHex? (withoutUnderscores digits) with
    | some n => if n < 2 ^ (64 : Nat) then some (signed negative n) else none
    | none => none
  match dropFinal? isLongMark body with
  | some digits =>
    match (value? digits).bind int64? with
    | some v => .ok (.long v)
    | none => .error .long
  | none =>
    match (value? body).bind int32? with
    | some v => .ok (.int v)
    | none => .error .int

/-- A literal without sign whose marks decide between float, double and int. -/
def readDecimalLiteral (negative : Bool) (body : List Char) : Except NumberKind Number :=
  match dropFinal? isFloatMark body with
  | some spelling =>
    match Binary.read? negative spelling with
    | some v => .ok (.float v)
    | none => .error .float
  | none =>
    let spelling? := dropFinal? isDoubleMark body
    let spelling := spelling?.getD body
    if spelling?.isSome || spelling.any (fun c => c = '.' || c = 'e' || c = 'E')
        || spelling == "NaN".toList || spelling == "Infinity".toList then
      match Binary.read? negative spelling with
      | some v => .ok (.double v)
      | none => .error .double
    else
      match ((readDigits? (withoutUnderscores spelling)).map (signed negative)).bind int32? with
      | some v => .ok (.int v)
      | none => .error .int

/-- The number a literal denotes, or the kind it could not be converted to. -/
def read (text : String) : Except NumberKind Number :=
  let (negative, unsigned) := splitSign text.toList
  match hexBody? unsigned with
  | some body => readHexLiteral negative body
  | none =>
    match dropFinal? isLongMark unsigned with
    | some digits =>
      match ((readDigits? (withoutUnderscores digits)).map (signed negative)).bind int64? with
      | some v => .ok (.long v)
      | none => .error .long
    | none => readDecimalLiteral negative unsigned

/-- A literal for the number. -/
def text : Number → String
  | .int v => toString v.toInt
  | .long v => toString v.toInt ++ "L"
  | .float v => String.ofList (v.text ++ ['F'])
  | .double v => String.ofList v.text

end Number

end JvmListing
