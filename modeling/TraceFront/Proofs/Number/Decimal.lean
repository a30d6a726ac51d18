import TraceFront.Number.Decimal
import TraceFront.Proofs.Number.Integer

/-!
# The grammar of decimal fractions

* `FractionText`, `ExponentText`     the two parts that may be missing;
* `DecimalText`                      a text and its four parts;
* `Decimal.exists_read?_iff`         the texts with such parts are read, and no others;
* `FloatText`                        a decimal fraction with a point or an exponent, and how it is
                                     told from an integer.

The reader takes as many digits as there are.  So the parts that it finds are those of the grammar
because no digit comes first in what follows the digits of a part (`NoDigit`).
-/

namespace TraceFront.Number

/-! ## parts -/

/-- an optional sign -/
def SignText (cs : List Char) : Prop := cs ∈ [[], ['+'], ['-']]

/-- nothing, or a point and any number of digits -/
def FractionText (cs : List Char) : Prop :=
  cs = [] ∨ ∃ ds, cs = '.' :: ds ∧ ∀ c ∈ ds, c.isDigit = true

/-- nothing, or an `e` of either case, an optional sign and one or more digits -/
def ExponentText (cs : List Char) : Prop :=
  cs = [] ∨ ∃ mark ds n, cs = mark :: ds ∧ (mark = 'e' ∨ mark = 'E') ∧ IntegerText ds n

/-- a decimal fraction is a sign, digits, a fraction and an exponent -/
structure DecimalText (cs sign whole fraction exponent : List Char) : Prop where
  text : cs = sign ++ (whole ++ (fraction ++ exponent))
  sign : SignText sign
  whole : ∃ n, DigitText whole n
  fraction : FractionText fraction
  exponent : ExponentText exponent

/-! ## digits in front -/

/-- no digit comes first -/
def NoDigit (cs : List Char) : Prop := ∀ c ∈ cs.head?, c.isDigit = false

theorem noDigit_nil : NoDigit [] := by
  intro c hc
  cases hc

theorem noDigit_cons {c : Char} (h : c.isDigit = false) (cs : List Char) : NoDigit (c :: cs) := by
  intro d hd
  cases hd
  exact h

section
variable {ds rest : List Char} (hds : ∀ c ∈ ds, c.isDigit = true) (hrest : NoDigit rest)
include hds hrest

theorem takeWhile_digits : (ds ++ rest).takeWhile Char.isDigit = ds := by
  rw [List.takeWhile_append_of_pos hds]
  cases rest with
  | nil => exact List.append_nil _
  | cons c rest =>
    have hc : ¬c.isDigit = true := by simp [hrest c rfl]
    rw [List.takeWhile_cons_of_neg hc, List.append_nil]

theorem dropWhile_digits : (ds ++ rest).dropWhile Char.isDigit = rest := by
  rw [List.dropWhile_append_of_pos hds]
  cases rest with
  | nil => rfl
  | cons c rest =>
    have hc : ¬c.isDigit = true := by simp [hrest c rfl]
    exact List.dropWhile_cons_of_neg hc

end

theorem ExponentText.noDigit {cs : List Char} (h : ExponentText cs) : NoDigit cs := by
  obtain rfl | ⟨mark, ds, n, rfl, hmark, -⟩ := h
  · exact noDigit_nil
  · refine noDigit_cons ?_ ds
    obtain rfl | rfl := hmark
    · rfl
    · rfl

theorem FractionText.noDigit {fraction exponent : List Char} (h : FractionText fraction)
    (hexponent : ExponentText exponent) : NoDigit (fraction ++ exponent) := by
  obtain rfl | ⟨ds, rfl, -⟩ := h
  · exact hexponent.noDigit
  · exact noDigit_cons rfl _

/-! ## reading -/

namespace Decimal

/-- the exponent is read exactly if it is one -/
theorem exists_readExponent?_iff {cs : List Char} :
    (∃ n, readExponent? cs = some n) ↔ ExponentText cs := by
  cases cs with
  | nil => exact iff_of_true ⟨0, rfl⟩ (.inl rfl)
  | cons c cs =>
    by_cases hc : c = 'e' ∨ c = 'E'
    · rw [readExponent?, if_pos hc]
      simp only [readInt?_eq_some_iff]
      constructor
      · intro ⟨n, hn⟩
        exact .inr ⟨c, cs, n, rfl, hc, hn⟩
      · intro h
        obtain h | ⟨mark, ds, n, h, -, hn⟩ := h
        · cases h
        · cases h
          exact ⟨n, hn⟩
    · rw [readExponent?, if_neg hc]
      refine iff_of_false (fun ⟨n, hn⟩ => by cases hn) ?_
      intro h
      obtain h | ⟨mark, ds, n, h, hmark, -⟩ := h
      · cases h
      · cases h
        exact hc hmark

/-- a fraction in front of an exponent is cut off -/
theorem splitFraction_append {fraction exponent : List Char} (hf : FractionText fraction)
    (he : ExponentText exponent) :
    ∃ ds, splitFraction (fraction ++ exponent) = (ds, exponent) := by
  obtain rfl | ⟨ds, rfl, hds⟩ := hf
  · refine ⟨[], ?_⟩
    obtain rfl | ⟨mark, ds, n, rfl, hmark, -⟩ := he
    · rfl
    · have hpoint : mark ≠ '.' := by
        obtain rfl | rfl := hmark
        · decide
        · decide
      exact if_neg hpoint
  · refine ⟨ds, ?_⟩
    show ((ds ++ exponent).takeWhile Char.isDigit, (ds ++ exponent).dropWhile Char.isDigit) = _
    rw [takeWhile_digits hds he.noDigit, dropWhile_digits hds he.noDigit]

/-- what is cut off from a text is a fraction -/
theorem exists_fractionText (cs : List Char) :
    ∃ fraction, FractionText fraction ∧ cs = fraction ++ (splitFraction cs).2 := by
  cases cs with
  | nil => exact ⟨[], .inl rfl, rfl⟩
  | cons c cs =>
    by_cases hc : c = '.'
    · refine ⟨'.' :: cs.takeWhile Char.isDigit, .inr ⟨_, rfl, ?_⟩, ?_⟩
      · exact List.all_eq_true.mp List.all_takeWhile
      · rw [splitFraction, if_pos hc, hc]
        show _ = '.' :: (cs.takeWhile Char.isDigit ++ cs.dropWhile Char.isDigit)
        rw [List.takeWhile_append_dropWhile]
    · refine ⟨[], .inl rfl, ?_⟩
      rw [splitFraction, if_neg hc]
      rfl

/-- the reader by its parts, behind the sign -/
theorem exists_read?_iff_of_splitSign {cs ds : List Char} {negative : Bool}
    (hsign : splitSign cs = (negative, ds)) :
    (∃ x, read? cs = some x) ↔ ds.takeWhile Char.isDigit ≠ [] ∧
      ExponentText (splitFraction (ds.dropWhile Char.isDigit)).2 := by
  rw [← exists_readExponent?_iff, read?, hsign]
  simp only [List.isEmpty_iff]
  split
  · rename_i hnil
    refine iff_of_false (fun ⟨x, hx⟩ => by cases hx) ?_
    exact fun h => h.1 hnil
  · rename_i hne
    simp only [Option.map_eq_some_iff, hne, not_false_eq_true, true_and, ne_eq]
    constructor
    · intro ⟨x, n, hn, _⟩
      exact ⟨n, hn⟩
    · intro ⟨n, hn⟩
      exact ⟨_, n, hn, rfl⟩

theorem exists_decimalText {cs sign ds : List Char} (hcs : cs = sign ++ ds) (hs : SignText sign)
    (hne : ds.takeWhile Char.isDigit ≠ [])
    (he : ExponentText (splitFraction (ds.dropWhile Char.isDigit)).2) :
    ∃ whole fraction exponent, DecimalText cs sign whole fraction exponent := by
  obtain ⟨fraction, hfraction, hrest⟩ := exists_fractionText (ds.dropWhile Char.isDigit)
  have hdigits : ∀ c ∈ ds.takeWhile Char.isDigit, c.isDigit = true :=
    List.all_eq_true.mp List.all_takeWhile
  refine ⟨_, fraction, _, ⟨?_, hs, ⟨_, hne, hdigits, rfl⟩, hfraction, he⟩⟩
  rw [← hrest, List.takeWhile_append_dropWhile]
  exact hcs

/-- the texts with the parts of a decimal fraction are read, and no others -/
theorem exists_read?_iff {cs : List Char} :
    (∃ x, read? cs = some x) ↔
      ∃ sign whole fraction exponent, DecimalText cs sign whole fraction exponent := by
  constructor
  · intro h
    obtain ⟨ds, hcs, hsign⟩ | ⟨ds, hcs, hsign⟩ | hsign := splitSign_cases cs
    · obtain ⟨hne, he⟩ := (exists_read?_iff_of_splitSign hsign).mp h
      exact ⟨['-'], exists_decimalText hcs (by simp [SignText]) hne he⟩
    · obtain ⟨hne, he⟩ := (exists_read?_iff_of_splitSign hsign).mp h
      exact ⟨['+'], exists_decimalText hcs (by simp [SignText]) hne he⟩
    · obtain ⟨hne, he⟩ := (exists_read?_iff_of_splitSign hsign).mp h
      exact ⟨[], exists_decimalText rfl (by simp [SignText]) hne he⟩
  · intro ⟨sign, whole, fraction, exponent, h⟩
    obtain ⟨n, hwhole⟩ := h.whole
    obtain ⟨d, ds, hd, hdigit⟩ := hwhole.exists_cons
    have hsign : ∃ negative, splitSign cs = (negative, whole ++ (fraction ++ exponent)) := by
      have hs := h.sign
      simp only [SignText, List.mem_cons, List.not_mem_nil, or_false] at hs
      rw [h.text]
      obtain rfl | rfl | rfl := hs
      · rw [hd]
        exact ⟨false, splitSign_digits hdigit _⟩
      · exact ⟨false, rfl⟩
      · exact ⟨true, rfl⟩
    obtain ⟨negative, hsign⟩ := hsign
    have hrest := h.fraction.noDigit h.exponent
    refine (exists_read?_iff_of_splitSign hsign).mpr ?_
    rw [takeWhile_digits hwhole.digits hrest, dropWhile_digits hwhole.digits hrest]
    obtain ⟨fs, hsplit⟩ := splitFraction_append h.fraction h.exponent
    rw [hsplit]
    exact ⟨hwhole.ne_nil, h.exponent⟩

end Decimal

/-! ## fractions that are no integers -/

/-- a decimal fraction in which the point or the exponent is present -/
def FloatText (cs : List Char) : Prop :=
  ∃ sign whole fraction exponent, DecimalText cs sign whole fraction exponent ∧
    (fraction ≠ [] ∨ exponent ≠ [])

/-- the character tells a fraction from an integer -/
def isFloatMark (c : Char) : Bool := c == '.' || c == 'e' || c == 'E'

theorem isFloatMark_of_isDigit {c : Char} (h : c.isDigit = true) : isFloatMark c = false := by
  have hne : ∀ {d : Char}, d.isDigit = false → (c == d) = false := by
    intro d hd
    refine beq_false_of_ne ?_
    intro heq
    rw [heq, hd] at h
    cases h
  rw [isFloatMark, hne rfl, hne rfl, hne rfl]
  rfl

theorem DigitText.any_isFloatMark {cs : List Char} {n : Nat} (h : DigitText cs n) :
    cs.any isFloatMark = false := by
  refine List.any_eq_false.mpr ?_
  intro c hc
  rw [isFloatMark_of_isDigit (h.digits c hc)]
  exact Bool.false_ne_true

/-- there is no mark in an integer -/
theorem IntegerText.any_isFloatMark {cs : List Char} {n : Int} (h : IntegerText cs n) :
    cs.any isFloatMark = false := by
  cases h with
  | unsigned hds => exact hds.any_isFloatMark
  | plus hds => exact hds.any_isFloatMark
  | minus hds => exact hds.any_isFloatMark

/-- a decimal fraction has a mark exactly if its point or its exponent is present -/
theorem DecimalText.any_isFloatMark_iff {cs sign whole fraction exponent : List Char}
    (h : DecimalText cs sign whole fraction exponent) :
    cs.any isFloatMark = true ↔ fraction ≠ [] ∨ exponent ≠ [] := by
  obtain ⟨n, hwhole⟩ := h.whole
  have hsign : sign.any isFloatMark = false := by
    have hs := h.sign
    simp only [SignText, List.mem_cons, List.not_mem_nil, or_false] at hs
    obtain rfl | rfl | rfl := hs
    · rfl
    · rfl
    · rfl
  have hfraction : fraction.any isFloatMark = true ↔ fraction ≠ [] := by
    obtain rfl | ⟨ds, rfl, -⟩ := h.fraction
    · simp
    · exact iff_of_true rfl (List.cons_ne_nil _ _)
  have hexponent : exponent.any isFloatMark = true ↔ exponent ≠ [] := by
    obtain rfl | ⟨mark, ds, n, rfl, hmark, -⟩ := h.exponent
    · simp
    · refine iff_of_true ?_ (List.cons_ne_nil _ _)
      obtain rfl | rfl := hmark
      · rfl
      · rfl
  rw [h.text, List.any_append, List.any_append, List.any_append, hsign, hwhole.any_isFloatMark,
    Bool.false_or, Bool.false_or, Bool.or_eq_true, hfraction, hexponent]

end TraceFront.Number
