import TraceFront.Number.Binary64

/-!
# The fewest digits that read back

A positive finite number `m * 2^q` is the nearest one to every real in an interval around it.  On
each grid of multiples of a power of ten, from the coarsest that can show the number down, the two
neighbours of the number are tested: the first grid with a neighbour inside the interval wins, of
two such neighbours the nearer, and of two equally near ones the larger.

* `Rounding`   numerators of the interval's ends, and whether the ends belong to it;
* `onGrid?`    the winner on one grid;
* `shortest`   the winner of the first grid that has one.
-/

namespace TraceFront.Number.Shortest

/-- the reals that round to `m * 2^q`, in units of `2^(q - 2)`, and a middle at `4 * m` -/
structure Rounding where
  low : Nat
  middle : Nat
  high : Nat
  closed : Bool

/-- the interval of `m * 2^q`: half a unit to both sides, but a quarter below a power of two whose
lower neighbour lies in a finer scale.  The ends belong to it when `m` is even. -/
def rounding (m : Nat) (q : Int) : Rounding :=
  let below := if m = Binary64.leadingOne ∧ Binary64.minScale < q then 1 else 2
  ⟨4 * m - below, 4 * m, 4 * m + 2, m % 2 = 0⟩

/-- factors for the binary and for the decimal side that compare `x * 2^(q - 2)` with `c * 10^k` -/
def factors (q k : Int) : Nat × Nat :=
  (Nat.pow 2 (q - 2).toNat * Nat.pow 10 (-k).toNat,
    Nat.pow 2 (2 - q).toNat * Nat.pow 10 k.toNat)

/-- the neighbour of `m * 2^q` on the grid of multiples of `10^k` that rounds to it, if any -/
def onGrid? (m : Nat) (q k : Int) : Option Nat :=
  let i := rounding m q
  let (binary, decimal) := factors q k
  let inside (c : Nat) : Bool :=
    if i.closed then i.low * binary ≤ c * decimal && c * decimal ≤ i.high * binary
    else i.low * binary < c * decimal && c * decimal < i.high * binary
  let floor := i.middle * binary / decimal
  let rest := i.middle * binary % decimal
  match inside floor, inside (floor + 1) with
  | true, true => some (if 2 * rest < decimal then floor else floor + 1)
  | true, false => some floor
  | false, true => some (floor + 1)
  | false, false => none

/-- a power of ten that lifts every positive number above one -/
def lift : Nat := 330

/-- the `e` with `10^(e - 1) ≤ m * 2^q < 10^e`, for positive `m` -/
def decimalExponent (m : Nat) (q : Int) : Int :=
  let (n, d) := Binary64.timesTwoPow q (m * Nat.pow 10 lift) 1
  (Binary64.decimalLength (n / d) : Int) - lift

def maxDigits : Nat := 17

/-- `(c, k)` such that `c * 10^k` has the fewest digits among the decimals that round to
`m * 2^q` -/
def shortest (m : Nat) (q : Int) : Nat × Int :=
  let top := decimalExponent m q
  let grids := (List.range maxDigits).map fun i : Nat => top - 1 - i
  (grids.findSome? fun k => (onGrid? m q k).map (·, k)).getD (0, 0)

end TraceFront.Number.Shortest
