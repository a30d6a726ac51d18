import Mathlib.Algebra.Group.Int.Defs
import TraceFront.Proofs.Number.Decimal
import TraceFront.Proofs.Source.Hygiene
import TraceFront.Proofs.Token.Grammar

/-!
# Numbers among the atoms

An atom that starts like a number is a number or an error.  It is tried as an integer of 64 bits
first.  As a fraction it is tried only if there is a point or an `e` in it, and such an atom is no
integer, so that an integer out of range never turns into a fraction.

* `readNumber?_int_iff`, `readNumber?_float_iff`   what an atom that starts like a number is;
* `Run`                   the tokens that the lexer has found, and where it stands;
* `nextToken_atom`        at an atom, the next token is decided by its text;
* `AtAtom`                the cursor comes to an atom, and what it finds there;
* `lex_numerals`          the atoms of a source that are numbers, and those that are errors.
-/

namespace TraceFront

open Number Text

/-! ## what an atom is -/

theorem readNumber?_eq (text : List Char) : readNumber? text =
    match readInt64? text with
    | some n => some (.int n)
    | none =>
      if text.any isFloatMark then (Decimal.read? text).map fun x => .float (.ofDecimal x)
      else none := by
  rw [readNumber?]
  rfl

theorem readNumber?_int_iff {text : List Char} {n : Int64} :
    readNumber? text = some (.int n) ↔ IntegerText text n.toInt := by
  rw [← readInt?_eq_some_iff, ← readInt64?_eq_some_iff, readNumber?_eq]
  cases readInt64? text with
  | some m => simp
  | none => simp

theorem readNumber?_float_iff {text : List Char} :
    (∃ x, readNumber? text = some (.float x)) ↔ FloatText text := by
  rw [readNumber?_eq]
  constructor
  · intro ⟨x, hx⟩
    split at hx
    · cases hx
    · split at hx
      · rename_i hmark
        obtain ⟨y, hy, -⟩ := Option.map_eq_some_iff.mp hx
        obtain ⟨sign, whole, fraction, exponent, hparts⟩ := Decimal.exists_read?_iff.mp ⟨y, hy⟩
        exact ⟨sign, whole, fraction, exponent, hparts, hparts.any_isFloatMark_iff.mp hmark⟩
      · cases hx
  · intro ⟨sign, whole, fraction, exponent, hparts, hpresent⟩
    have hmark := hparts.any_isFloatMark_iff.mpr hpresent
    obtain ⟨y, hy⟩ := Decimal.exists_read?_iff.mpr ⟨sign, whole, fraction, exponent, hparts⟩
    have hint : readInt64? text = none := by
      cases hread : readInt64? text with
      | none => rfl
      | some n =>
        have htext := readInt?_eq_some_iff.mp (readInt64?_eq_some_iff.mp hread)
        rw [htext.any_isFloatMark] at hmark
        cases hmark
    rw [hint, if_pos hmark, hy]
    exact ⟨_, rfl⟩

section
variable {text : List Char} (h : LooksNumeric text) (span : Span)
include h

theorem classify_numeric : classify text span =
    match readNumber? text with
    | some k => .ok k
    | none => .error (.invalidNumber (String.ofList text) span) := by
  unfold classify
  exact if_pos (startsNumber_iff.mpr h)

theorem classify_numeric_eq_ok_iff {k : TokenKind} :
    classify text span = .ok k ↔ readNumber? text = some k := by
  rw [classify_numeric h]
  cases readNumber? text with
  | some m => simp
  | none => simp

/-- an atom that starts like a number and is none is an error -/
theorem classify_invalid (hint : ∀ n : Int64, ¬IntegerText text n.toInt)
    (hfloat : ¬FloatText text) :
    classify text span = .error (.invalidNumber (String.ofList text) span) := by
  rw [classify_numeric h]
  cases hread : readNumber? text with
  | none => rfl
  | some k =>
    obtain ⟨n, rfl⟩ | ⟨x, rfl⟩ := readNumber?_cases hread
    · exact absurd (readNumber?_int_iff.mp hread) (hint n)
    · exact absurd (readNumber?_float_iff.mp ⟨x, hread⟩) hfloat

end

/-- an atom that does not start like a number is a keyword or a symbol -/
theorem classify_not_numeric {text : List Char} (h : ¬LooksNumeric text) (span : Span) :
    ∃ s, classify text span = .ok (.keyword s) ∨ classify text span = .ok (.symbol s) := by
  have hstart : ¬startsNumber text = true := fun hstart => h (startsNumber_iff.mp hstart)
  unfold classify
  rw [if_neg hstart]
  split
  · split
    · exact ⟨_, .inl rfl⟩
    · exact ⟨_, .inr rfl⟩
  · exact ⟨_, .inr rfl⟩

/-- the integers of 64 bits are those from `-2^63` to `2^63 - 1` -/
theorem exists_toInt_eq_iff {m : Int} :
    (∃ n : Int64, n.toInt = m) ↔ -2 ^ 63 ≤ m ∧ m < 2 ^ 63 := by
  constructor
  · intro ⟨n, hn⟩
    have hlo := n.le_toInt
    have hhi := n.toInt_lt
    omega
  · intro ⟨hlo, hhi⟩
    exact ⟨.ofInt m, Int64.toInt_ofInt_of_le (by omega) (by omega)⟩

/-! ## runs of the lexer -/

/-- the lexer has found the tokens `ts` of a source and stands at `p` -/
inductive Run (source : String) : List Token → Cursor → Prop
  | start : Run source [] ⟨0, source.toList⟩
  | step {ts : List Token} {t : Token} {p q : Cursor} : Run source ts p →
      nextToken p = some (.ok (t, q)) → Run source (ts ++ [t]) q

namespace Run

variable {source : String} {ts : List Token} {p : Cursor}

/-- the offset counts the bytes before the cursor -/
theorem exists_before (h : Run source ts p) :
    ∃ before, source.toList = before ++ p.rest ∧ p.offset = byteLength before := by
  induction h with
  | start => exact ⟨[], rfl, rfl⟩
  | @step ts t p q _ hnext ih =>
    obtain ⟨before, hsource, hoffset⟩ := ih
    obtain ⟨gap, text, k, hrest, -, -, -, htq⟩ := spells_of_nextToken hnext
    obtain ⟨-, hq⟩ := Prod.mk.inj htq
    refine ⟨before ++ (gap ++ text), ?_, ?_⟩
    · rw [hsource, hrest]
      simp
    · rw [hq, byteLength_append, byteLength_append, hoffset, Nat.add_assoc]

/-- the rest of the run decides on the whole source -/
theorem lex_eq (h : Run source ts p) : lex source = (lexFrom p).map (ts ++ ·) := by
  induction h with
  | start =>
    show lexFrom _ = _
    cases lexFrom ⟨0, source.toList⟩ with
    | ok us => rfl
    | error e => rfl
  | @step ts t p q _ hnext ih =>
    rw [ih, lexFrom_eq p, hnext]
    show ((lexFrom q).map (t :: ·)).map (ts ++ ·) = _
    cases lexFrom q with
    | ok us =>
      show Except.ok (ts ++ t :: us) = .ok (ts ++ [t] ++ us)
      rw [List.append_assoc]
      rfl
    | error e => rfl

/-- an error at the cursor is the error of the source -/
theorem lex_of_error (h : Run source ts p) {e : LexError} (he : nextToken p = some (.error e)) :
    lex source = .error e := by
  rw [h.lex_eq, lexFrom_eq, he]
  rfl

end Run

/-! ## atoms in a source -/

/-- a longest run of characters that are not delimiters, with `rest` behind it -/
structure IsAtom (text rest : List Char) : Prop where
  ne_nil : text ≠ []
  atomChars : ∀ c ∈ text, isAtomChar c = true
  not_sigil : text.head? ≠ some '~'
  ended : AtomEnded rest

/-- at an atom, the next token is decided by the text of the atom -/
theorem nextToken_atom {text rest : List Char} (h : IsAtom text rest) (offset : Nat) :
    nextToken ⟨offset, text ++ rest⟩ =
      some ((classify text (.ofRange offset (offset + byteLength text))).map
        (tokenOf offset text · rest)) := by
  obtain ⟨c, ds, rfl⟩ := List.exists_cons_of_ne_nil h.ne_nil
  have hc : isAtomChar c = true := h.atomChars c List.mem_cons_self
  have hsigil : c ≠ '~' := fun heq => h.not_sigil (congrArg some heq)
  rw [List.cons_append, nextToken_start (isBlank_of_isAtomChar hc) (ne_of_isAtomChar hc rfl),
    tokenAt_atom hc hsigil, ← List.cons_append, atomToken, takeWhile_atom h.atomChars h.ended,
    dropWhile_atom h.atomChars h.ended]
  cases classify (c :: ds) (.ofRange offset (offset + byteLength (c :: ds))) with
  | ok k => rfl
  | error e => rfl

/-- the next token is the text behind `before`, and it is of this kind -/
def Finds (p : Cursor) (before text rest : List Char) (k : TokenKind) : Prop :=
  nextToken p = some (.ok (tokenOf (byteLength before) text k rest))

/-- the cursor comes to the atom `text` behind `before` -/
structure AtAtom (source : String) (p : Cursor) (before text rest : List Char) : Prop where
  source : source.toList = before ++ (text ++ rest)
  next : nextToken p = some ((classify text
    (.ofRange (byteLength before) (byteLength before + byteLength text))).map
      (tokenOf (byteLength before) text · rest))

theorem Run.exists_atAtom {source : String} {ts : List Token} {p : Cursor} (hrun : Run source ts p)
    {gap text rest : List Char} (hgap : Gap False gap) (hrest : p.rest = gap ++ (text ++ rest))
    (hatom : IsAtom text rest) : ∃ before, AtAtom source p before text rest := by
  obtain ⟨front, hsource, hoffset⟩ := hrun.exists_before
  obtain ⟨offset, cs⟩ := p
  subst hrest
  have hplace : offset + byteLength gap = byteLength (front ++ gap) := by
    rw [byteLength_append]
    exact congrArg (· + byteLength gap) hoffset
  refine ⟨front ++ gap, by rw [hsource, List.append_assoc], ?_⟩
  rw [nextToken_gap hgap, hplace, nextToken_atom hatom]

namespace AtAtom

variable {source : String} {p : Cursor} {before text rest : List Char}

/-- what is found is what the text is classified as -/
theorem finds_iff (h : AtAtom source p before text rest) {k : TokenKind} :
    Finds p before text rest k ↔
      classify text (.ofRange (byteLength before) (byteLength before + byteLength text)) = .ok k := by
  rw [Finds, h.next]
  cases classify text _ with
  | ok k' => simp [Except.map, tokenOf]
  | error e => simp [Except.map]

theorem finds_int_iff (h : AtAtom source p before text rest) (hnumeric : LooksNumeric text)
    (m : Int) : (∃ n : Int64, n.toInt = m ∧ Finds p before text rest (.int n)) ↔
      IntegerText text m ∧ -2 ^ 63 ≤ m ∧ m < 2 ^ 63 := by
  simp only [h.finds_iff, classify_numeric_eq_ok_iff hnumeric, readNumber?_int_iff]
  rw [← exists_toInt_eq_iff]
  constructor
  · intro ⟨n, hn, htext⟩
    exact ⟨hn ▸ htext, n, hn⟩
  · intro ⟨htext, n, hn⟩
    exact ⟨n, hn, hn ▸ htext⟩

theorem finds_float_iff (h : AtAtom source p before text rest) (hnumeric : LooksNumeric text) :
    (∃ x, Finds p before text rest (.float x)) ↔ FloatText text := by
  simp only [h.finds_iff, classify_numeric_eq_ok_iff hnumeric]
  exact readNumber?_float_iff

/-- an atom that starts like a number and is none is not passed -/
theorem next_invalid (h : AtAtom source p before text rest) (hnumeric : LooksNumeric text)
    (hint : ¬∃ m, IntegerText text m ∧ -2 ^ 63 ≤ m ∧ m < 2 ^ 63) (hfloat : ¬FloatText text) :
    nextToken p = some (.error (.invalidNumber (String.ofList text)
      (.ofRange (byteLength before) (byteLength before + byteLength text)))) := by
  have hint' : ∀ n : Int64, ¬IntegerText text n.toInt :=
    fun n htext => hint ⟨n.toInt, htext, exists_toInt_eq_iff.mp ⟨n, rfl⟩⟩
  rw [h.next, classify_invalid hnumeric _ hint' hfloat]
  rfl

theorem finds_other (h : AtAtom source p before text rest) (hnumeric : ¬LooksNumeric text) :
    ∃ k, Finds p before text rest k ∧ (∀ n, k ≠ .int n) ∧ ∀ x, k ≠ .float x := by
  obtain ⟨s, hk | hk⟩ := classify_not_numeric hnumeric
    (.ofRange (byteLength before) (byteLength before + byteLength text))
  · exact ⟨_, h.finds_iff.mpr hk, nofun, nofun⟩
  · exact ⟨_, h.finds_iff.mpr hk, nofun, nofun⟩

end AtAtom

/-- **The numbers of a source.**  Where the lexer meets an atom that starts with a digit, or with a
sign and a digit, it finds an integer exactly if the atom is one of 64 bits, and a fraction exactly
if the atom is one with a point or an exponent.  All other such atoms are errors, and so is then the
source.  An atom that starts otherwise is no number. -/
theorem lex_numerals {source : String} {ts : List Token} {p : Cursor} (hrun : Run source ts p)
    {gap text rest : List Char} (hgap : Gap False gap) (hrest : p.rest = gap ++ (text ++ rest))
    (hatom : IsAtom text rest) :
    ∃ before, source.toList = before ++ (text ++ rest) ∧
      (LooksNumeric text →
        (∀ m : Int, (∃ n : Int64, n.toInt = m ∧ Finds p before text rest (.int n)) ↔
          IntegerText text m ∧ -2 ^ 63 ≤ m ∧ m < 2 ^ 63) ∧
        ((∃ x, Finds p before text rest (.float x)) ↔ FloatText text) ∧
        ((¬∃ m, IntegerText text m ∧ -2 ^ 63 ≤ m ∧ m < 2 ^ 63) → ¬FloatText text →
          lex source = .error (.invalidNumber (String.ofList text)
            (.ofRange (byteLength before) (byteLength before + byteLength text))))) ∧
      (¬LooksNumeric text → ∃ k, Finds p before text rest k ∧
        (∀ n, k ≠ .int n) ∧ ∀ x, k ≠ .float x) := by
  obtain ⟨before, h⟩ := hrun.exists_atAtom hgap hrest hatom
  refine ⟨before, h.source, ?_, h.finds_other⟩
  intro hnumeric
  refine ⟨h.finds_int_iff hnumeric, h.finds_float_iff hnumeric, ?_⟩
  intro hint hfloat
  exact hrun.lex_of_error (h.next_invalid hnumeric hint hfloat)

/-- the integer below the least one of 64 bits, behind a bracket and a symbol -/
theorem lex_numerals_of_small_integer :
    let source := "(f, -9223372036854775809)"
    let text := "-9223372036854775809".toList
    let ts : List Token := [⟨.opening .round, ⟨0, 1⟩⟩, ⟨.symbol "f", ⟨1, 2⟩⟩]
    Run source ts ⟨2, ", -9223372036854775809)".toList⟩ ∧ IsAtom text [')'] ∧ LooksNumeric text ∧
      lex source = .error (.invalidNumber "-9223372036854775809" ⟨4, 24⟩) := by
  intro source text ts
  have hbracket : Run source [⟨.opening .round, ⟨0, 1⟩⟩] ⟨1, "f, -9223372036854775809)".toList⟩ :=
    .step .start (by decide +kernel)
  have hrun : Run source ts ⟨2, ", -9223372036854775809)".toList⟩ := .step hbracket (by decide +kernel)
  have hgap : Gap False [',', ' '] := .blank rfl (.blank rfl .nil)
  have hatom : IsAtom text [')'] :=
    ⟨by decide, List.all_eq_true.mp rfl, by decide, atomEnded_cons rfl []⟩
  have hnumeric : LooksNumeric text := startsNumber_iff.mp rfl
  obtain ⟨before, hsource, hnumber, -⟩ := lex_numerals hrun hgap rfl hatom
  have hbefore : "(f, ".toList = before := by
    have hcut : "(f, ".toList ++ (text ++ [')']) = source.toList := by decide +kernel
    exact List.append_cancel_right (hcut.trans hsource)
  have hvalue : readInt? text = some (-9223372036854775809) := by decide +kernel
  refine ⟨hrun, hatom, hnumeric, ?_⟩
  rw [(hnumber hnumeric).2.2 ?_ ?_, ← hbefore]
  · rfl
  · intro hint
    obtain ⟨m, hm, hlo, -⟩ := hint
    have hm' : -9223372036854775809 = m :=
      Option.some.inj (hvalue.symm.trans (readInt?_eq_some_iff.mpr hm))
    omega
  · intro hfloat
    obtain ⟨x, hx⟩ := readNumber?_float_iff.mpr hfloat
    have hnone : readNumber? text = none := by decide +kernel
    cases hnone.symm.trans hx

end TraceFront
