import Mathlib.Tactic.ByContra
import TraceFront.Proofs.Source.Printing

/-!
# Hygiene of names

The rules on a name are kept in four places.  The lexer ends an atom at a delimiter, takes a tilde for
a sigil, and sorts numbers and keywords out; the reader makes literals of three words; recognition
refuses the words of forms, the two marks and the separator, for references in one function and for
binders in another.  What is left is one class of names, in both positions:

* `Hygienic`                 the rules in one place, with the delimiters as bytes of the text;
* `Text.mem_bytes_iff`       an ASCII character is in a text if its byte is among those of the text;
* `hygienic_iff_identifier`  these are the names that go through all stages;
* `parse_hygienic`           the variables and the binders of a source are hygienic, and every hygienic
                             name can be a variable and a binder.
-/

namespace TraceFront

open Text

/-! ## the rules -/

/-- the delimiters of a source -/
def delimiters : List Char := [' ', '\t', '\n', '\r', ',', '(', ')', '[', ']', '"', ';']

/-- the text is a digit, or a sign and a digit, with anything behind -/
def LooksNumeric (cs : List Char) : Prop :=
  ∃ sign d rest, sign ∈ [[], ['+'], ['-']] ∧ d.isDigit = true ∧ cs = sign ++ d :: rest

/-- the words that name no variable: those of the nine forms, the two marks and the literals -/
def takenWords : List String :=
  ["program", "if", "block", "define", "with-address", "tuple", "this", "splice", "unquote",
   "_", "&this", "nil", "true", "false"]

/-- a name that no stage takes for something else -/
structure Hygienic (n : String) : Prop where
  ne_empty : n ≠ ""
  no_delimiter : ∀ b ∈ bytes n, b ∉ delimiters.map Char.toUInt8
  no_separator : '|' ∉ n.toList
  no_tilde : n.toList.head? ≠ some '~'
  not_keyword : ∀ c cs, n.toList ≠ ':' :: c :: cs
  not_numeric : ¬LooksNumeric n.toList
  not_taken : n ∉ takenWords

/-! ## bytes and characters -/

namespace Text

theorem bytes_eq_flatMap (s : String) : bytes s = s.toList.flatMap String.utf8EncodeChar := by
  have hs : bytes s = s.toList.utf8Encode.data.toList := by
    rw [bytes, String.toUTF8_eq_toByteArray, ← String.toByteArray_ofList, String.ofList_toList]
  rw [hs, List.utf8Encode]
  simp

theorem le_toNat_or (x : UInt8) {k : UInt8} (hk : 128 ≤ k.toNat) : 128 ≤ (x ||| k).toNat := by
  rw [UInt8.toNat_or]
  exact Nat.le_trans hk Nat.right_le_or

theorem utf8Size_eq_one_iff_toNat {c : Char} : c.utf8Size = 1 ↔ c.toNat < 128 := by
  rw [Char.utf8Size_eq_one_iff, UInt32.le_iff_toNat_le]
  exact Nat.lt_succ_iff.symm

/-- the bytes of a character beyond ASCII all have their highest bit set -/
theorem le_toNat_of_mem_utf8EncodeChar {c : Char} (hc : 128 ≤ c.toNat) :
    ∀ b ∈ String.utf8EncodeChar c, 128 ≤ b.toNat := by
  rcases Char.utf8Size_eq c with h | h | h | h
  · exact absurd (utf8Size_eq_one_iff_toNat.mp h) (Nat.not_lt.mpr hc)
  · rw [String.utf8EncodeChar_eq_cons_cons h]
    simp [-UInt8.toNat_or, le_toNat_or]
  · rw [String.utf8EncodeChar_eq_cons_cons_cons h]
    simp [-UInt8.toNat_or, le_toNat_or]
  · rw [String.utf8EncodeChar_eq_cons_cons_cons_cons h]
    simp [-UInt8.toNat_or, le_toNat_or]

theorem toNat_toUInt8 {c : Char} (hc : c.toNat < 128) : c.toUInt8.toNat = c.toNat := by
  have hmod : c.toUInt8.toNat = c.toNat % 256 := rfl
  omega

theorem toUInt8_mem_utf8EncodeChar {c d : Char} (hd : d.toNat < 128) :
    d.toUInt8 ∈ String.utf8EncodeChar c ↔ d = c := by
  by_cases hc : c.toNat < 128
  · rw [String.utf8EncodeChar_eq_singleton (utf8Size_eq_one_iff_toNat.mpr hc), List.mem_singleton]
    refine ⟨fun h => ?_, fun h => by rw [h]; rfl⟩
    have hnat : d.toUInt8.toNat = c.toUInt8.toNat := congrArg UInt8.toNat h
    rw [toNat_toUInt8 hd, toNat_toUInt8 hc] at hnat
    exact Char.toNat_inj.mp hnat
  · refine ⟨fun h => ?_, fun h => absurd (h ▸ hd) hc⟩
    have hle := le_toNat_of_mem_utf8EncodeChar (Nat.not_lt.mp hc) _ h
    rw [toNat_toUInt8 hd] at hle
    exact absurd hd (Nat.not_lt.mpr hle)

/-- no part of another character looks like an ASCII character -/
theorem mem_bytes_iff {d : Char} (hd : d.toNat < 128) {s : String} :
    d.toUInt8 ∈ bytes s ↔ d ∈ s.toList := by
  rw [bytes_eq_flatMap, List.mem_flatMap]
  simp only [toUInt8_mem_utf8EncodeChar hd, exists_eq_right']

end Text

/-! ## the rules and the stages -/

theorem mem_delimiters_iff {c : Char} : c ∈ delimiters ↔ isAtomChar c = false := by
  simp only [delimiters, List.mem_cons, List.not_mem_nil, or_false, isAtomChar, endsAtom, isBlank,
    Bool.not_eq_false', Bool.or_eq_true, beq_iff_eq, or_assoc]

theorem delimiters_ascii : ∀ c ∈ delimiters, c.toNat < 128 := by
  simp [delimiters]

theorem no_delimiter_iff {n : String} :
    (∀ b ∈ bytes n, b ∉ delimiters.map Char.toUInt8) ↔ ∀ c ∈ n.toList, isAtomChar c = true := by
  constructor
  · intro h c hc
    by_contra hatom
    have hmem : c ∈ delimiters := mem_delimiters_iff.mpr (Bool.not_eq_true _ ▸ hatom)
    exact h _ ((mem_bytes_iff (delimiters_ascii c hmem)).mpr hc) (List.mem_map_of_mem hmem)
  · intro h b hb hmem
    obtain ⟨c, hc, rfl⟩ := List.mem_map.mp hmem
    have hatom := h c ((mem_bytes_iff (delimiters_ascii c hc)).mp hb)
    rw [mem_delimiters_iff.mp hc] at hatom
    cases hatom

theorem startsNumber_iff {cs : List Char} : startsNumber cs = true ↔ LooksNumeric cs := by
  constructor
  · intro h
    match cs, h with
    | [c], h => exact ⟨[], c, [], by decide, h, rfl⟩
    | c :: d :: ds, h =>
      simp only [startsNumber, Bool.or_eq_true, Bool.and_eq_true, beq_iff_eq] at h
      rcases h with hc | ⟨rfl | rfl, hd⟩
      · exact ⟨[], c, d :: ds, by decide, hc, rfl⟩
      · exact ⟨['+'], d, ds, by decide, hd, rfl⟩
      · exact ⟨['-'], d, ds, by decide, hd, rfl⟩
  · rintro ⟨sign, d, rest, hsign, hd, rfl⟩
    simp only [List.mem_cons, List.not_mem_nil, or_false] at hsign
    rcases hsign with rfl | rfl | rfl
    · exact startsNumber_digit hd rest
    · simp [startsNumber, hd]
    · simp [startsNumber, hd]

theorem isReserved_eq_true_iff {n : String} :
    Vocabulary.isReserved n = true ↔ n ∈ Vocabulary.words := by
  rw [Vocabulary.isReserved, Option.isSome_iff_exists, Vocabulary.words, List.mem_map]
  constructor
  · rintro ⟨f, hf⟩
    exact ⟨f, SpecialForm.mem_all f, SpecialForm.ofWord?_eq_some_iff.mp hf⟩
  · rintro ⟨f, _, hf⟩
    exact ⟨f, SpecialForm.ofWord?_eq_some_iff.mpr hf⟩

theorem mem_takenWords_iff {n : String} : n ∈ takenWords ↔ Vocabulary.isReserved n = true ∨
    n = Vocabulary.wildcard ∨ n = Vocabulary.selfReference ∨ n = "nil" ∨ n = "true" ∨ n = "false" := by
  have hsplit : takenWords = Vocabulary.words ++
      [Vocabulary.wildcard, Vocabulary.selfReference, "nil", "true", "false"] := rfl
  rw [hsplit, List.mem_append, isReserved_eq_true_iff]
  simp only [List.mem_cons, List.not_mem_nil, or_false]

/-- the names that go through all stages are the hygienic ones -/
theorem hygienic_iff_identifier {n : String} : Hygienic n ↔ Identifier n := by
  constructor
  · intro h
    have hfree := h.not_taken
    rw [mem_takenWords_iff] at hfree
    push Not at hfree
    obtain ⟨hreserved, hwildcard, hself, hnil, htrue, hfalse⟩ := hfree
    have htext : SymbolText n.toList := by
      refine ⟨?_, no_delimiter_iff.mp h.no_delimiter, ?_, h.not_keyword, h.no_tilde⟩
      · exact fun hempty => h.ne_empty (String.toList_eq_nil_iff.mp hempty)
      · exact Bool.eq_false_iff.mpr fun hnumber => h.not_numeric (startsNumber_iff.mp hnumber)
    have hplain : PlainSymbol n := ⟨htext, hnil, htrue, hfalse⟩
    have hallowed : Allowed n :=
      ⟨hwildcard, hself, Bool.eq_false_iff.mpr hreserved, h.no_separator⟩
    exact { hplain, hallowed with }
  · intro h
    refine ⟨h.ne_empty, no_delimiter_iff.mpr h.text.atomChars, h.no_separator, h.text.not_sigil,
      h.text.not_keyword, ?_, ?_⟩
    · intro hnumeric
      have hnumber := startsNumber_iff.mpr hnumeric
      rw [h.text.not_number] at hnumber
      cases hnumber
    · intro htaken
      rcases mem_takenWords_iff.mp htaken with hn | hn | hn | hn | hn | hn
      · rw [h.not_reserved] at hn
        cases hn
      · exact h.not_wildcard hn
      · exact h.not_self hn
      · exact h.not_nil hn
      · exact h.not_true hn
      · exact h.not_false hn

/-! ## the names of a source -/

/-- the text of a legible datum is parsed as the expression that the datum spells -/
theorem parse_render {d : Datum String} (hd : d.Legible) {e : Expr String}
    (he : Expr.ofDatum d = .ok e) : ∃ e', parse d.render = .ok [e'] ∧ e'.unplaced = e.unplaced := by
  obtain ⟨d', hread, hunplaced⟩ := Datum.read_render hd
  obtain ⟨e', he', heq⟩ := Expr.ofDatum_of_unplaced_eq hunplaced he
  refine ⟨e', ?_, heq⟩
  rw [parse, hread]
  dsimp only
  rw [Expr.ofDatums, he']
  rfl

theorem Expr.exists_var_of_unplaced {e : Expr String} {n : String}
    (h : e.unplaced = .var n default) : ∃ s, e = .var n s := by
  cases e with
  | var m s =>
    obtain ⟨rfl, _⟩ := Expr.var.inj h
    exact ⟨s, rfl⟩
  | _ => cases h

theorem Pattern.ofDatum_of_allowed {n : String} (h : Allowed n) (s : Span) :
    ofDatum (.symbol n s) = .ok (.name n) := by
  rw [ofDatum_symbol, if_neg h.not_wildcard, newName_text, if_neg h.not_self,
    reference_of_allowed h]
  rfl

/-- a hygienic name can be bound and referred to -/
theorem parse_of_hygienic {n : String} (h : Hygienic n) :
    ∃ s t, parse ("(program " ++ n ++ " " ++ n ++ ")") = .ok [.program (.name n) [.var n s] t] := by
  have hid : Identifier n := hygienic_iff_identifier.mp h
  let d : Datum String := .list [.symbol SpecialForm.program.word default, .symbol n default,
    .symbol n default] default
  have hlegible : d.Legible := by
    refine ⟨?_, List.forall_mem_nil _⟩
    have hplain : PlainSymbol n := hid.toPlainSymbol
    exact List.forall_mem_cons.mpr ⟨plainSymbol_word .program,
      List.forall_mem_cons.mpr ⟨hplain, List.forall_mem_singleton.mpr hplain⟩⟩
  have hbody : Expr.ofDatums [.symbol n default] = .ok [.var n default] := by
    rw [Expr.ofDatums, Expr.ofDatum_of_spelled (.var default hid.toAllowed)]
    rfl
  have hspelled : Expr.Spelled d (.program (.name n) [.var n default] default) :=
    .program default (SpecialForm.ofWord?_word .program)
      (Pattern.ofDatum_of_allowed hid.toAllowed default) hbody
  have htext : d.render = "(program " ++ n ++ " " ++ n ++ ")" := by
    apply String.toList_injective
    rw [show d = Delimiter.round.datum _ _ from rfl, Datum.toList_bracketed]
    simp [Datum.render, SpecialForm.word, Delimiter.opening, Delimiter.closing]
  obtain ⟨e, he, hunplaced⟩ := parse_render hlegible (Expr.ofDatum_of_spelled hspelled)
  rw [htext] at he
  cases e with
  | program p body t =>
    obtain ⟨rfl, hparts, _⟩ := Expr.program.inj hunplaced
    -- the body is one variable: lists of other lengths differ from it without their places, too
    rcases body with _ | ⟨f, _ | ⟨g, gs⟩⟩
    · cases hparts
    · obtain ⟨s, rfl⟩ := Expr.exists_var_of_unplaced (List.cons.inj hparts).1
      exact ⟨s, t, he⟩
    · cases (List.cons.inj hparts).2
  | _ => cases hunplaced

/-- **The names of a source are hygienic.**  Every variable of a source that is accepted, and every
name that a pattern in it binds, at any depth, keeps all rules.  No further rule is kept anywhere: each
text that keeps them can be bound and referred to. -/
theorem parse_hygienic :
    (∀ (source : String) (es : List (Expr String)), parse source = .ok es →
      ∀ e ∈ Expr.subtermsAll es, ∀ n ∈ e.ownIdentifiers, Hygienic n) ∧
    ∀ n, Hygienic n → ∃ s t,
      parse ("(program " ++ n ++ " " ++ n ++ ")") = .ok [.program (.name n) [.var n s] t] := by
  refine ⟨?_, fun n hn => parse_of_hygienic hn⟩
  intro source es h e he n hn
  have hmem : n ∈ e.identifiers := by
    rw [Expr.identifiers_eq]
    exact List.mem_append_left _ hn
  exact hygienic_iff_identifier.mpr (identifiers_of_mem_parse h he n hmem)

/-- names in a pattern inside a pattern, and a variable that holds the bytes of an accented letter -/
theorem parse_hygienic_of_nested_patterns :
    ∃ e : Expr String, parse "(define [a [b- _]] (program (tuple c) é))" = .ok [e] ∧
      (Expr.subtermsAll [e]).flatMap Expr.ownIdentifiers = ["a", "b-", "c", "é"] ∧
      ∀ f ∈ Expr.subtermsAll [e], ∀ n ∈ f.ownIdentifiers, Hygienic n := by
  let e : Expr String := .define (.tuple [.name "a", .tuple [.name "b-", .wildcard]])
    (.program (.tuple [.name "c"]) [.var "é" ⟨38, 40⟩] ⟨19, 41⟩) ⟨0, 42⟩
  have hread : read "(define [a [b- _]] (program (tuple c) é))" = .ok [.list
      [.symbol "define" ⟨1, 7⟩,
      .vector [.symbol "a" ⟨9, 10⟩, .vector [.symbol "b-" ⟨12, 14⟩, .symbol "_" ⟨15, 16⟩] ⟨11, 17⟩]
        ⟨8, 18⟩,
      .list [.symbol "program" ⟨20, 27⟩, .list [.symbol "tuple" ⟨29, 34⟩, .symbol "c" ⟨35, 36⟩]
        ⟨28, 37⟩, .symbol "é" ⟨38, 40⟩] ⟨19, 41⟩] ⟨0, 42⟩] := by decide +kernel
  have hparse : parse "(define [a [b- _]] (program (tuple c) é))" = .ok [e] :=
    parse_of_read hread rfl
  exact ⟨e, hparse, rfl, parse_hygienic.1 _ _ hparse⟩

end TraceFront
