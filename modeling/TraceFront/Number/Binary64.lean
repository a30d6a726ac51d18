import TraceFront.Number.Decimal

/-!
# Binary floating point of 64 bits

A number is kept as its 64 bits, so that two numbers are equal exactly when their bits are: the two
zeros differ, and a number that is not a number equals itself.  A finite number with magnitude bits
`(exponent, fraction)` stands for `significand * 2 ^ scale`.

* `Binary64.ofRatio`    the number nearest to a quotient, a tie going to the even significand;
* `Binary64.ofDecimal`  the number nearest to a decimal fraction.
-/

namespace TraceFront.Number

/-- a floating-point number, given by its bits -/
structure Binary64 where
  bits : UInt64
deriving DecidableEq, Inhabited

namespace Binary64

/-- the number of fraction bits below the leading one -/
def fractionBits : Nat := 52

/-- the scale of the smallest positive number -/
def minScale : Int := -1074

/-- the bit above the fraction -/
def leadingOne : Nat := 0x10000000000000

def signBit : Nat := 0x8000000000000000

/-- the magnitude bits of infinity -/
def infinityBits : Nat := 0x7ff * leadingOne

/-- the number with a sign and magnitude bits below `2^63` -/
def ofMagnitude (negative : Bool) (magnitude : Nat) : Binary64 :=
  ⟨UInt64.ofNat (if negative then signBit + magnitude else magnitude)⟩

def isNegative (x : Binary64) : Bool := signBit ≤ x.bits.toNat

/-- the bits without the sign -/
def magnitude (x : Binary64) : Nat := x.bits.toNat % signBit

/-- neither a number nor an infinity -/
def isNaN (x : Binary64) : Bool := infinityBits < x.magnitude

def isInfinite (x : Binary64) : Bool := x.magnitude == infinityBits

/-- significand and scale of a finite number: it stands for `±significand * 2 ^ scale` -/
def decode (x : Binary64) : Nat × Int :=
  let exponent := x.magnitude / leadingOne
  let fraction := x.magnitude % leadingOne
  if exponent = 0 then (fraction, minScale)
  else (leadingOne + fraction, minScale + exponent - 1)

/-- the natural number nearest to `num / den`, a tie going to the even one -/
def roundHalfEven (num den : Nat) : Nat :=
  let q := num / den
  let r := num % den
  if den < 2 * r ∨ (2 * r = den ∧ q % 2 = 1) then q + 1 else q

/-- `num * 2 ^ e`, where a negative power goes to the denominator -/
def timesTwoPow (e : Int) (num den : Nat) : Nat × Nat :=
  if 0 ≤ e then (num * Nat.pow 2 e.toNat, den) else (num, den * Nat.pow 2 (-e).toNat)

/-- the largest `e` with `2 ^ e ≤ num / den`, for positive `num` and `den` -/
def floorLog2 (num den : Nat) : Int :=
  let estimate : Int := (Nat.log2 num : Int) - (Nat.log2 den : Int)
  let (n, d) := timesTwoPow (-estimate) num den
  if d ≤ n then estimate else estimate - 1

/-- the scale at which `num / den` has a significand of full width, but not below `minScale` -/
def scaleOf (num den : Nat) : Int :=
  max minScale (floorLog2 num den - fractionBits)

/-- magnitude bits of the number nearest to `num / den`: counting the significand in units of its
scale lets a carry run into the exponent -/
def magnitudeOfRatio (num den : Nat) : Nat :=
  if num = 0 then 0
  else
    let scale := scaleOf num den
    let (n, d) := timesTwoPow (-scale) num den
    min infinityBits ((scale - minScale).toNat * leadingOne + roundHalfEven n d)

def ofRatio (negative : Bool) (num den : Nat) : Binary64 :=
  ofMagnitude negative (magnitudeOfRatio num den)

def decimalLength (n : Nat) : Nat := (Nat.toDigits 10 n).length

/-- the number nearest to a decimal fraction.  A fraction of more than `10^309` is infinite and one
below `10^-330` is zero, whatever its digits. -/
def ofDecimal (x : Decimal) : Binary64 :=
  let top : Int := decimalLength x.significand + x.exponent
  if x.significand = 0 ∨ top < -330 then ofMagnitude x.negative 0
  else if 310 < top then ofMagnitude x.negative infinityBits
  else if 0 ≤ x.exponent then ofRatio x.negative (x.significand * Nat.pow 10 x.exponent.toNat) 1
  else ofRatio x.negative x.significand (Nat.pow 10 (-x.exponent).toNat)

end Binary64

end TraceFront.Number
