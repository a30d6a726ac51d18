import TraceFront.Number.Integer

/-!
# Decimal fractions

A decimal fraction is an optional sign, one or more digits, optionally a point with any number of
digits, and optionally an exponent: `e` or `E`, an optional sign and one or more digits.  Its value
is kept exactly, as a natural number times a power of ten.

* `Decimal`        sign, significand and exponent;
* `Decimal.read?`  the reader of the grammar above.
-/

namespace TraceFront.Number

/-- the number `±significand * 10 ^ exponent` -/
structure Decimal where
  negative : Bool
  significand : Nat
  exponent : Int
deriving DecidableEq

namespace Decimal

/-- the digits after a point, if there is one, and what follows them -/
def splitFraction : List Char → List Char × List Char
  | [] => ([], [])
  | c :: cs =>
    if c = '.' then (cs.takeWhile Char.isDigit, cs.dropWhile Char.isDigit) else ([], c :: cs)

/-- the exponent: nothing, which counts as zero, or a mark followed by an integer -/
def readExponent? : List Char → Option Int
  | [] => some 0
  | c :: cs => if c = 'e' ∨ c = 'E' then readInt? cs else none

def read? (cs : List Char) : Option Decimal :=
  let (negative, unsigned) := splitSign cs
  let whole := unsigned.takeWhile Char.isDigit
  let (fraction, rest) := splitFraction (unsigned.dropWhile Char.isDigit)
  if whole.isEmpty then none
  else (readExponent? rest).map fun e =>
    ⟨negative, digitsValue (whole ++ fraction), e - fraction.length⟩

end Decimal

end TraceFront.Number
