import Mathlib.Data.List.Basic
import Mathlib.Tactic.ByContra
import TraceFront.Proofs.Source.Printing

/-!
# Escapes in printed datums

The printer has an escape for each character that cannot stand in a string as itself: a letter behind
the backslash for six of them, and the code point behind `\u` for all others.  The lexer knows the six
letters and no more.  So a printed datum can be read again unless a character of it is shown by its
code, and then the lexer stops at the first such character, whatever stands around it.

* `EscapeKnown`              the lexer knows the escape of a character;
* `Stumbles`                 the lexer refuses the escape `u` in a text;
* `stumbles_quoted`          it does so in a string with a coded character,
* `Datum.stumbles`           and in a datum with such a string;
* `Datum.read_render_known`  a datum is read from its text if the lexer knows the escapes in it, and
                             only then.
-/

namespace TraceFront

open Text

/-! ## the escapes of one character -/

/-- the lexer knows the escape that the printer uses for the character, if it uses one -/
def EscapeKnown (c : Char) : Prop := ∀ e more, escape c = '\\' :: e :: more → (unescape? e).isSome

theorem escape_of_needsCode {c : Char} (h : needsCode c = true) :
    ∃ more, escape c = '\\' :: 'u' :: more := by
  have hshort : shortEscape? c = none := by
    rw [needsCode, Bool.and_eq_true] at h
    exact Option.isNone_iff_eq_none.mp h.1
  rw [escape, hshort]
  dsimp only
  rw [if_pos h]
  exact ⟨_, rfl⟩

theorem escapeKnown_iff {c : Char} : EscapeKnown c ↔ needsCode c = false := by
  constructor
  · intro h
    by_contra hcode
    obtain ⟨more, hescape⟩ := escape_of_needsCode (Bool.not_eq_false _ ▸ hcode)
    exact absurd (h 'u' more hescape) (by decide)
  · intro h e more hescape
    cases hshort : shortEscape? c with
    | none =>
      rw [escape_of_plain hshort h] at hescape
      cases hescape
    | some e' =>
      rw [escape, hshort] at hescape
      cases hescape
      rw [unescape?_of_shortEscape? hshort]
      rfl

/-! ## texts that the lexer refuses -/

/-- wherever the text starts, the lexer stops at an escape `u` -/
def Stumbles (cs : List Char) : Prop :=
  ∀ offset, ∃ span, lexFrom ⟨offset, cs⟩ = .error (.invalidEscape 'u' span)

/-- tokens in front of such a text do not help -/
theorem LeadsTo.stumbles {cs rest : List Char} {ks : List TokenKind} (h : LeadsTo cs ks rest)
    (hrest : Stumbles rest) : Stumbles cs := by
  intro offset
  obtain ⟨ts, after, _, hcs⟩ := h offset
  obtain ⟨span, herror⟩ := hrest after
  refine ⟨span, ?_⟩
  rw [hcs, herror]
  rfl

theorem stringBody_unknown (start offset : Nat) (read more : List Char) :
    ∃ span, stringBody start offset read ('\\' :: 'u' :: more) = .error (.invalidEscape 'u' span) :=
  ⟨_, rfl⟩

/-- a string in which a character is shown by its code -/
theorem stumbles_quoted {s : String} (h : ∃ c ∈ s.toList, needsCode c = true) (rest : List Char) :
    Stumbles ((quoted s).toList ++ rest) := by
  intro offset
  -- all escapes before the first coded character are read
  obtain ⟨c, hfirst⟩ := Option.isSome_iff_exists.mp (List.find?_isSome.mpr h)
  obtain ⟨hc, before, behind, hs, hbefore⟩ := List.find?_eq_some_iff_append.mp hfirst
  obtain ⟨more, hescape⟩ := escape_of_needsCode hc
  have hgood : ∀ d ∈ before, needsCode d = false := by
    intro d hd
    simpa using hbefore d hd
  have htext : s.toList.flatMap escape ++ '"' :: rest = before.flatMap escape ++
      ('\\' :: 'u' :: (more ++ (behind.flatMap escape ++ '"' :: rest))) := by
    rw [hs, List.flatMap_append, List.flatMap_cons, hescape]
    simp
  obtain ⟨after, hbody⟩ := stringBody_escapes hgood offset
    ('\\' :: 'u' :: (more ++ (behind.flatMap escape ++ '"' :: rest))) (offset + 1) []
  obtain ⟨span, herror⟩ := stringBody_unknown offset after (before.reverse ++ [])
    (more ++ (behind.flatMap escape ++ '"' :: rest))
  refine ⟨span, ?_⟩
  have htoken : tokenAt offset '"' (s.toList.flatMap escape ++ '"' :: rest) =
      .error (.invalidEscape 'u' span) := by
    show stringToken offset _ = _
    rw [stringToken, htext, hbody, herror]
  rw [toList_quoted_append, lexFrom_eq, nextToken_start rfl (by decide), htoken]

/-! ## datums that the lexer refuses -/

namespace Datum

/-- a character in a string of the datum is shown by its code -/
def Coded (d : Datum String) : Prop := ∃ s, .str s ∈ d.literals ∧ ∃ c ∈ s.toList, needsCode c = true

theorem not_coded_iff {d : Datum String} :
    ¬d.Coded ↔ ∀ s, .str s ∈ d.literals → ∀ c ∈ s.toList, needsCode c = false := by
  simp [Coded]

theorem Writable.item {c d : Datum String} (h : d.Writable) (hc : c ∈ d.items) : c.Writable :=
  ⟨fun n hn => h.symbols n (symbols_of_mem_items hc hn),
    fun x hx => h.no_float x (literals_of_mem_items hc hx),
    fun k hk => h.keywords k (literals_of_mem_items hc hk)⟩

theorem exists_coded_of_bracket {shape : Delimiter} {ds : List (Datum String)} {s : Span}
    (h : (shape.datum ds s).Coded) : ∃ d ∈ ds, d.Coded := by
  obtain ⟨t, ht, hcode⟩ := h
  have hmem : .str t ∈ literalsAll ds := by
    cases shape with
    | round => exact ht
    | square => exact ht
  obtain ⟨d, hd, htd⟩ := mem_literalsAll.mp hmem
  exact ⟨d, hd, t, htd, hcode⟩

/-- the items up to the first one with a coded character are read -/
theorem stumbles_items {ds : List (Datum String)} (hds : ∀ d ∈ ds, d.Writable)
    (ih : ∀ d ∈ ds, d.Coded → ∀ rest, Stumbles (d.render.toList ++ rest))
    (hcoded : ∃ d ∈ ds, d.Coded) (rest : List Char) :
    Stumbles ([' '].intercalate (ds.map (·.render.toList)) ++ rest) := by
  induction ds with
  | nil => exact absurd hcoded (by simp)
  | cons d ds ihds =>
    obtain ⟨hd, hds⟩ := List.forall_mem_cons.mp hds
    obtain ⟨ihd, ih⟩ := List.forall_mem_cons.mp ih
    cases ds with
    | nil =>
      rw [List.map_cons, List.map_nil, List.intercalate_singleton]
      exact ihd (by simpa using hcoded) rest
    | cons e es =>
      rw [List.map_cons, List.map_cons, List.intercalate_cons_cons, List.append_assoc,
        List.append_assoc]
      by_cases hcode : d.Coded
      · exact ihd hcode _
      · have hlegible : d.Legible := hd.legible (not_coded_iff.mp hcode)
        have hlater : ∃ c ∈ e :: es, c.Coded :=
          ((List.exists_mem_cons_iff _ _ _).mp hcoded).resolve_left hcode
        exact ((leads hlegible (atomEnded_cons rfl _)).trans (LeadsTo.blank rfl _)).stumbles
          (ihds hds ih hlater)

theorem stumbles_bracket (shape : Delimiter) {ds : List (Datum String)} {s : Span}
    (hds : ∀ d ∈ ds, d.Writable)
    (ih : ∀ d ∈ ds, d.Coded → ∀ rest, Stumbles (d.render.toList ++ rest))
    (hcoded : (shape.datum ds s).Coded) (rest : List Char) :
    Stumbles ((shape.datum ds s).render.toList ++ rest) := by
  rw [toList_bracketed, List.cons_append, List.append_assoc]
  have hitems := stumbles_items hds ih (exists_coded_of_bracket hcoded) ([shape.closing] ++ rest)
  exact (LeadsTo.opening shape _).stumbles hitems

/-- a datum with a coded character, whatever stands behind it -/
theorem stumbles {d : Datum String} (hd : d.Writable) (hcoded : d.Coded) (rest : List Char) :
    Stumbles (d.render.toList ++ rest) := by
  induction d using childInduction generalizing rest with
  | step d ih =>
    have hitems : ∀ c ∈ d.items, c.Writable := fun c hc => hd.item hc
    have ihitems : ∀ c ∈ d.items, c.Coded → ∀ rest, Stumbles (c.render.toList ++ rest) :=
      fun c hc hcode rest => ih c hc (hitems c hc) hcode rest
    cases d with
    | literal l s =>
      obtain ⟨t, ht, hcode⟩ := hcoded
      obtain rfl := List.mem_singleton.mp ht
      exact stumbles_quoted hcode rest
    | symbol n s =>
      obtain ⟨t, ht, _⟩ := hcoded
      cases ht
    | list ds s => exact stumbles_bracket .round hitems ihitems hcoded rest
    | vector ds s => exact stumbles_bracket .square hitems ihitems hcoded rest

theorem read_render_of_coded {d : Datum String} (hd : d.Writable) (hcoded : d.Coded) :
    ∃ span, read d.render = .error (.lex (.invalidEscape 'u' span)) := by
  obtain ⟨span, herror⟩ := stumbles hd hcoded [] 0
  refine ⟨span, ?_⟩
  rw [List.append_nil] at herror
  rw [read, lex, herror]

/-- the lexer knows the escape of every character in a string of the datum -/
def EscapesKnown (d : Datum String) :
    Prop := ∀ s, .str s ∈ d.literals → ∀ c ∈ s.toList, EscapeKnown c

theorem escapesKnown_iff {d : Datum String} : d.EscapesKnown ↔ ¬d.Coded := by
  simp only [EscapesKnown, escapeKnown_iff, not_coded_iff]

/-- **A printed datum is read again exactly if the lexer knows its escapes.**  Take any datum inside a
source, with no fraction in it.  If no character in its strings is shown by its code, its text holds
that datum and nothing else.  If there is such a character, the lexer refuses the escape `u`.  So the
text is good for reading just when the lexer knows every escape that the printer has used in it. -/
theorem read_render_known {source : String} {ds : List (Datum String)} (h : read source = .ok ds)
    {d : Datum String} (hd : d ∈ subtermsAll ds) (hfloat : ∀ x, .float x ∉ d.literals) :
    (¬d.Coded → ∃ d', read d.render = .ok [d'] ∧ d'.unplaced = d.unplaced) ∧
    (d.Coded → ∃ span, read d.render = .error (.lex (.invalidEscape 'u' span))) ∧
    ((∃ d', read d.render = .ok [d'] ∧ d'.unplaced = d.unplaced) ↔ d.EscapesKnown) := by
  have hwritable : d.Writable := read_writable h hd hfloat
  have hgood : ¬d.Coded → ∃ d', read d.render = .ok [d'] ∧ d'.unplaced = d.unplaced :=
    fun hcode => read_render (hwritable.legible (not_coded_iff.mp hcode))
  refine ⟨hgood, read_render_of_coded hwritable, ?_⟩
  rw [escapesKnown_iff]
  refine ⟨?_, hgood⟩
  rintro ⟨d', hread, _⟩ hcoded
  obtain ⟨span, herror⟩ := read_render_of_coded hwritable hcoded
  rw [hread] at herror
  cases herror

/-- the newline has a short escape, and the bell behind it is shown by its code -/
theorem read_render_known_of_newline_and_bell :
    ∃ d e : Datum String, read "[(a \"\n\") \"\x07\"]" = .ok [d] ∧ e ∈ d.items ∧
      e.render = "(a \"\\n\")" ∧ d.render = "[(a \"\\n\") \"\\u\x7b7\x7d\"]" ∧
      (∃ e', read e.render = .ok [e'] ∧ e'.unplaced = e.unplaced) ∧
      ∃ span, read d.render = .error (.lex (.invalidEscape 'u' span)) := by
  let e : Datum String := .list [.symbol "a" ⟨2, 3⟩, .literal (.str "\n") ⟨4, 7⟩] ⟨1, 8⟩
  let d : Datum String := .vector [e, .literal (.str "\x07") ⟨9, 12⟩] ⟨0, 13⟩
  have hread : read "[(a \"\n\") \"\x07\"]" = .ok [d] := by decide +kernel
  have hd : d ∈ subtermsAll [d] := List.mem_cons_self
  have he : e ∈ subtermsAll [d] := List.mem_cons_of_mem _ List.mem_cons_self
  have hfloat : ∀ x, .float x ∉ d.literals := by
    simp [d, e, literals, literalsAll]
  have hfloat' : ∀ x, .float x ∉ e.literals := by
    simp [e, literals, literalsAll]
  have hcoded : d.Coded :=
    ⟨"\x07", by simp [d, e, literals, literalsAll], '\x07', by decide, by decide⟩
  have hplain : ¬e.Coded := by
    rw [not_coded_iff]
    intro s hs c hc
    obtain rfl : s = "\n" := by simpa [e, literals, literalsAll] using hs
    obtain rfl := List.mem_singleton.mp hc
    decide
  exact ⟨d, e, hread, List.mem_cons_self, by decide, by decide,
    (read_render_known hread he hfloat').1 hplain, (read_render_known hread hd hfloat).2.1 hcoded⟩

end Datum

end TraceFront
