import Mathlib.Algebra.Group.Nat.Defs
import TraceFront.Number.Integer

/-!
# Integers that are written and read again

* `DigitText`, `IntegerText`, `IndexText`   how natural numbers, integers and positions are spelled;
* `readInt?_eq_some_iff`, `readIndex?_eq_some_iff`   these spellings are read, and no others;
* `digitsValue_toDigits`      the digits of a number have its value;
* `readInt64?_renderInt64`    an integer of 64 bits is read back;
* `readIndex?_repr`           so is a position.
-/

namespace TraceFront.Number

/-! ## spellings -/

/-- one or more decimal digits and their value; zeros may come first -/
structure DigitText (cs : List Char) (n : Nat) : Prop where
  ne_nil : cs ≠ []
  digits : ∀ c ∈ cs, c.isDigit = true
  value : Nat.ofDigitChars 10 cs 0 = n

/-- an integer: an optional sign and digits -/
inductive IntegerText : List Char → Int → Prop
  | unsigned {ds : List Char} {n : Nat} : DigitText ds n → IntegerText ds n
  | plus {ds : List Char} {n : Nat} : DigitText ds n → IntegerText ('+' :: ds) n
  | minus {ds : List Char} {n : Nat} : DigitText ds n → IntegerText ('-' :: ds) (-n)

/-- a position: an optional plus sign and digits, with a value below `2^64` -/
inductive IndexText : List Char → Nat → Prop
  | unsigned {ds : List Char} {n : Nat} : DigitText ds n → n < 2 ^ 64 → IndexText ds n
  | plus {ds : List Char} {n : Nat} : DigitText ds n → n < 2 ^ 64 → IndexText ('+' :: ds) n

theorem readNat?_iff_digitText {cs : List Char} {n : Nat} :
    readNat? cs = some n ↔ DigitText cs n := by
  rw [readNat?_eq_some_iff, List.all_eq_true]
  exact ⟨fun ⟨hne, hdigits, hvalue⟩ => ⟨hne, hdigits, hvalue.symm⟩,
    fun h => ⟨h.ne_nil, h.digits, h.value.symm⟩⟩

theorem DigitText.exists_cons {cs : List Char} {n : Nat} (h : DigitText cs n) :
    ∃ d ds, cs = d :: ds ∧ d.isDigit = true := by
  obtain ⟨d, ds, rfl⟩ := List.exists_cons_of_ne_nil h.ne_nil
  exact ⟨d, ds, rfl, h.digits d List.mem_cons_self⟩

/-! ## digits -/

theorem digitsValue_toDigits (n : Nat) : digitsValue (Nat.toDigits 10 n) = n :=
  Nat.ofDigitChars_ten_toDigits

theorem isDigit_of_mem_repr {n : Nat} {c : Char} (h : c ∈ n.repr.toList) : c.isDigit = true := by
  rw [Nat.toList_repr] at h
  exact Nat.isDigit_of_mem_toDigits (by decide) (by decide) h

/-- a digit comes first -/
theorem exists_toList_repr (n : Nat) : ∃ c cs, n.repr.toList = c :: cs ∧ c.isDigit = true := by
  obtain ⟨c, cs, h⟩ := List.exists_cons_of_ne_nil (Nat.toDigits_ne_nil (n := n) (b := 10))
  rw [← Nat.toList_repr] at h
  exact ⟨c, cs, h, isDigit_of_mem_repr (by rw [h]; exact List.mem_cons_self)⟩

theorem readNat?_repr (n : Nat) : readNat? n.repr.toList = some n := by
  rw [readNat?_eq_some_iff]
  refine ⟨?_, List.all_eq_true.mpr fun c hc => isDigit_of_mem_repr hc, ?_⟩
  · rw [Nat.toList_repr]
    exact Nat.toDigits_ne_nil
  · rw [Nat.toList_repr, digitsValue_toDigits]

theorem ne_sign_of_isDigit {c : Char} (h : c.isDigit = true) : c ≠ '-' ∧ c ≠ '+' := by
  constructor
  · rintro rfl
    cases h
  · rintro rfl
    cases h

/-! ## integers -/

theorem splitSign_minus (cs : List Char) : splitSign ('-' :: cs) = (true, cs) := rfl

theorem splitSign_plus (cs : List Char) : splitSign ('+' :: cs) = (false, cs) := rfl

theorem splitSign_digits {c : Char} (h : c.isDigit = true) (cs : List Char) :
    splitSign (c :: cs) = (false, c :: cs) := by
  obtain ⟨hminus, hplus⟩ := ne_sign_of_isDigit h
  rw [splitSign, if_neg hminus, if_neg hplus]

theorem toList_renderInt_of_neg {n : Int} (h : n < 0) :
    (renderInt n).toList = '-' :: n.natAbs.repr.toList := by
  rw [renderInt, if_pos h, String.toList_append]
  rfl

theorem toList_renderInt_of_nonneg {n : Int} (h : ¬n < 0) :
    (renderInt n).toList = n.natAbs.repr.toList := by
  rw [renderInt, if_neg h]

theorem readInt?_of_readNat? {cs ds : List Char} {neg : Bool} (hsign : splitSign cs = (neg, ds))
    {n : Nat} (h : readNat? ds = some n) :
    readInt? cs = some (if neg then -(n : Int) else n) := by
  unfold readInt?
  rw [hsign]
  dsimp only
  rw [h]
  rfl

/-- a text starts with a minus sign, with a plus sign or with neither -/
theorem splitSign_cases (cs : List Char) :
    (∃ ds, cs = '-' :: ds ∧ splitSign cs = (true, ds)) ∨
      (∃ ds, cs = '+' :: ds ∧ splitSign cs = (false, ds)) ∨ splitSign cs = (false, cs) := by
  cases cs with
  | nil => exact .inr (.inr rfl)
  | cons c cs =>
    by_cases hminus : c = '-'
    · exact .inl ⟨cs, by rw [hminus], if_pos hminus⟩
    · by_cases hplus : c = '+'
      · refine .inr (.inl ⟨cs, by rw [hplus], ?_⟩)
        rw [splitSign, if_neg hminus, if_pos hplus]
      · refine .inr (.inr ?_)
        rw [splitSign, if_neg hminus, if_neg hplus]

theorem exists_digitText_of_readInt? {cs ds : List Char} {neg : Bool}
    (hsign : splitSign cs = (neg, ds)) {n : Int} (h : readInt? cs = some n) :
    ∃ k : Nat, DigitText ds k ∧ n = if neg then -(k : Int) else k := by
  cases hread : readNat? ds with
  | none =>
    rw [readInt?, hsign, hread] at h
    cases h
  | some k =>
    refine ⟨k, readNat?_iff_digitText.mp hread, ?_⟩
    exact Option.some.inj (h.symm.trans (readInt?_of_readNat? hsign hread))

/-- an optional sign and digits are read as an integer, and nothing else is -/
theorem readInt?_eq_some_iff {cs : List Char} {n : Int} :
    readInt? cs = some n ↔ IntegerText cs n := by
  constructor
  · intro h
    rcases splitSign_cases cs with ⟨ds, rfl, hsign⟩ | ⟨ds, rfl, hsign⟩ | hsign
    · obtain ⟨k, hk, rfl⟩ := exists_digitText_of_readInt? hsign h
      exact .minus hk
    · obtain ⟨k, hk, rfl⟩ := exists_digitText_of_readInt? hsign h
      exact .plus hk
    · obtain ⟨k, hk, rfl⟩ := exists_digitText_of_readInt? hsign h
      exact .unsigned hk
  · intro h
    cases h with
    | unsigned hds =>
      obtain ⟨d, ds, rfl, hd⟩ := hds.exists_cons
      exact readInt?_of_readNat? (splitSign_digits hd ds) (readNat?_iff_digitText.mpr hds)
    | plus hds => exact readInt?_of_readNat? (splitSign_plus _) (readNat?_iff_digitText.mpr hds)
    | minus hds => exact readInt?_of_readNat? (splitSign_minus _) (readNat?_iff_digitText.mpr hds)

theorem readInt?_renderInt (n : Int) : readInt? (renderInt n).toList = some n := by
  have hnat := readNat?_repr n.natAbs
  by_cases h : n < 0
  · have hsign := splitSign_minus n.natAbs.repr.toList
    have habs : -(n.natAbs : Int) = n := by omega
    rw [toList_renderInt_of_neg h, readInt?_of_readNat? hsign hnat, if_pos rfl, habs]
  · have hsign : splitSign n.natAbs.repr.toList = (false, n.natAbs.repr.toList) := by
      obtain ⟨c, cs, hcs, hc⟩ := exists_toList_repr n.natAbs
      rw [hcs]
      exact splitSign_digits hc cs
    have habs : (n.natAbs : Int) = n := by omega
    rw [toList_renderInt_of_nonneg h, readInt?_of_readNat? hsign hnat, if_neg Bool.false_ne_true,
      habs]

theorem readInt64?_renderInt64 (n : Int64) : readInt64? (renderInt64 n).toList = some n :=
  readInt64?_eq_some_iff.mpr (readInt?_renderInt n.toInt)

/-! ## positions -/

/-- an optional plus sign and digits are read as a position, and nothing else is -/
theorem readIndex?_eq_some_iff {cs : List Char} {i : Nat} :
    readIndex? cs = some i ↔ IndexText cs i := by
  have hbound : ∀ {n : Nat}, n ≤ maxIndex ↔ n < 2 ^ 64 := by
    intro n
    rw [maxIndex]
    omega
  -- what follows the sign decides
  have hdigits : readIndex? cs = some i ↔
      DigitText (if cs.head? = some '+' then cs.tail else cs) i ∧ i < 2 ^ 64 := by
    rw [readIndex?, ← readNat?_iff_digitText]
    cases readNat? (if cs.head? = some '+' then cs.tail else cs) with
    | none => simp
    | some n =>
      simp only [Option.ite_none_right_eq_some, Option.some.injEq, hbound]
      exact ⟨fun ⟨hn, heq⟩ => ⟨heq, heq ▸ hn⟩, fun ⟨heq, hi⟩ => ⟨heq ▸ hi, heq⟩⟩
  rw [hdigits]
  constructor
  · rintro ⟨hds, hi⟩
    split at hds
    · rename_i hplus
      obtain ⟨ds, rfl⟩ := List.head?_eq_some_iff.mp hplus
      exact .plus hds hi
    · exact .unsigned hds hi
  · intro h
    cases h with
    | unsigned hds hi =>
      obtain ⟨d, ds, rfl, hd⟩ := hds.exists_cons
      have hplus : (d :: ds).head? ≠ some '+' :=
        fun hhead => (ne_sign_of_isDigit hd).2 (Option.some.inj hhead)
      rw [if_neg hplus]
      exact ⟨hds, hi⟩
    | plus hds hi => exact ⟨hds, hi⟩

theorem readIndex?_repr {i : Nat} (h : i ≤ maxIndex) : readIndex? i.repr.toList = some i := by
  obtain ⟨c, cs, hcs, hc⟩ := exists_toList_repr i
  have hnat := readNat?_repr i
  have hplus : (c :: cs).head? ≠ some '+' :=
    fun hhead => (ne_sign_of_isDigit hc).2 (Option.some.inj hhead)
  rw [hcs] at hnat ⊢
  rw [readIndex?, if_neg hplus, hnat]
  exact if_pos h

end TraceFront.Number
