/-!
# Decimal integers

Reading accepts an optional sign and one or more decimal digits; leading zeros are allowed.
Writing uses no sign for a value that is not negative and no leading zero.

* `readNat?`    digits alone;
* `readInt?`    an optional sign, then digits;
* `readInt64?`  the same with a value between `-2^63` and `2^63 - 1`;
* `readIndex?`  an optional plus sign, then digits, with a value below `2^64`.
-/

namespace TraceFront.Number

def digitValue (c : Char) : Nat := c.toNat - '0'.toNat

/-- the value of a list of decimal digits, most significant first -/
def digitsValue (cs : List Char) : Nat := cs.foldl (fun n c => 10 * n + digitValue c) 0

/-- one or more decimal digits -/
def readNat? (cs : List Char) : Option Nat :=
  if !cs.isEmpty && cs.all Char.isDigit then some (digitsValue cs) else none

/-- whether the number starts with a minus sign, and what follows its sign -/
def splitSign : List Char → Bool × List Char
  | [] => (false, [])
  | c :: cs => if c = '-' then (true, cs) else if c = '+' then (false, cs) else (false, c :: cs)

def readInt? (cs : List Char) : Option Int :=
  (readNat? (splitSign cs).2).map fun n => if (splitSign cs).1 then -(n : Int) else n

def minInt64 : Int := -0x8000000000000000

def maxInt64 : Int := 0x7fffffffffffffff

/-- an integer of 64 bits; a value out of range is refused -/
def readInt64? (cs : List Char) : Option Int64 :=
  match readInt? cs with
  | some n => if minInt64 ≤ n ∧ n ≤ maxInt64 then some (Int64.ofInt n) else none
  | none => none

def maxIndex : Nat := 0xffffffffffffffff

/-- a position below `2^64`: an optional plus sign and one or more decimal digits -/
def readIndex? (cs : List Char) : Option Nat :=
  match readNat? (if cs.head? = some '+' then cs.tail else cs) with
  | some n => if n ≤ maxIndex then some n else none
  | none => none

def renderInt (n : Int) : String :=
  if n < 0 then "-" ++ n.natAbs.repr else n.natAbs.repr

def renderInt64 (n : Int64) : String := renderInt n.toInt

theorem readNat?_eq_some_iff {cs : List Char} {n : Nat} :
    readNat? cs = some n ↔ cs ≠ [] ∧ cs.all Char.isDigit = true ∧ n = digitsValue cs := by
  unfold readNat?
  cases cs with
  | nil => simp
  | cons c cs =>
    by_cases h : (c :: cs).all Char.isDigit = true
    · simp [h, eq_comm]
    · simp [h]

/-- a value of 64 bits is read exactly when the unbounded value is in range -/
theorem readInt64?_eq_some_iff {cs : List Char} {n : Int64} :
    readInt64? cs = some n ↔ readInt? cs = some n.toInt := by
  unfold readInt64?
  cases hr : readInt? cs with
  | none => simp
  | some k =>
    by_cases h : minInt64 ≤ k ∧ k ≤ maxInt64
    · simp only [h, and_self, if_true, Option.some.injEq]
      unfold minInt64 maxInt64 at h
      constructor
      · rintro rfl
        exact (Int64.toInt_ofInt_of_le (by omega) (by omega)).symm
      · rintro rfl
        exact Int64.ofInt_toInt n
    · simp only [h, if_false, Option.some.injEq]
      constructor
      · intro h'; cases h'
      · rintro rfl
        have lo := n.le_toInt
        have hi := n.toInt_lt
        unfold minInt64 maxInt64 at h
        omega

end TraceFront.Number
