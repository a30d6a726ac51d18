import TraceFront.Number.Shortest

/-!
# How floating-point numbers are written

A number is written with the fewest digits that read back: positionally, always with a point, when
its decimal exponent is in `Style.positional`, and otherwise as one digit, the remaining ones after
a point, and an exponent without a plus sign.  A value that is not a number has no sign.

* `Style`              the decisions of the format;
* `floatStyle`         the ones used here;
* `Binary64.render`    the text of a number.
-/

namespace TraceFront.Number

/-- where positional writing starts and ends, and the words for the values that have no digits -/
structure Style where
  /-- least and largest `e` such that a number in `[10^(e-1), 10^e)` is written positionally -/
  positional : Int × Int
  mark : String
  infinite : String
  undefined : String

/-- positional from `10^-4` up to, and not including, `10^16` -/
def floatStyle : Style := ⟨(-3, 16), "e", "inf", "NaN"⟩

/-- the digits of `n` without the zeros at its end -/
def significantDigits (n : Nat) : List Char :=
  ((Nat.toDigits 10 n).reverse.dropWhile (· == '0')).reverse

/-- `0.d₁d₂… * 10^point` with the point where it belongs -/
def positionalText (digits : List Char) (point : Int) : List Char :=
  if point ≤ 0 then '0' :: '.' :: (List.replicate (-point).toNat '0' ++ digits)
  else if digits.length ≤ point.toNat then
    digits ++ List.replicate (point.toNat - digits.length) '0' ++ ['.', '0']
  else digits.take point.toNat ++ '.' :: digits.drop point.toNat

/-- one digit, the remaining ones after a point, and the exponent -/
def exponentText (mark : String) (digits : List Char) (point : Int) : List Char :=
  let fraction := if digits.length ≤ 1 then [] else '.' :: digits.drop 1
  digits.take 1 ++ fraction ++ mark.toList ++ (renderInt (point - 1)).toList

def finiteText (style : Style) (m : Nat) (q : Int) : List Char :=
  if m = 0 then ['0', '.', '0']
  else
    let (c, k) := Shortest.shortest m q
    let digits := significantDigits c
    let point : Int := Binary64.decimalLength c + k
    if style.positional.1 ≤ point ∧ point ≤ style.positional.2 then positionalText digits point
    else exponentText style.mark digits point

namespace Binary64

def renderIn (style : Style) (x : Binary64) : String :=
  if x.isNaN then style.undefined
  else
    let sign := if x.isNegative then "-" else ""
    if x.isInfinite then sign ++ style.infinite
    else sign ++ String.ofList (finiteText style x.decode.1 x.decode.2)

def render (x : Binary64) : String := x.renderIn floatStyle

end Binary64

end TraceFront.Number
