import TraceFront.Proofs.Source.Length
import TraceFront.Proofs.Token.Grammar

/-!
# Tokens tile the source

* `Span.Covers`     the text between the two offsets of a span, which are ends of characters;
* `Tiles.split`     tokens that are cut in two lists cut the text in two;
* `Tiles.pairwise`  a token starts where the one before it has ended, or later;
* `Tiled`           what the tokens of a source and the gaps around them cover.
-/

namespace TraceFront

open Text

/-! ## slices -/

/-- the span starts and stops at ends of characters of the source and has the bytes of `text`
between them -/
structure Span.Covers (s : Span) (source text : String) : Prop where
  ordered : s.start ≤ s.stop
  start : (⟨s.start⟩ : String.Pos.Raw).IsValid source
  stop : (⟨s.stop⟩ : String.Pos.Raw).IsValid source
  bytes : text.toByteArray = source.toByteArray.extract s.start s.stop

theorem isValid_of_append (a b : String) : (⟨a.utf8ByteSize⟩ : String.Pos.Raw).IsValid (a ++ b) :=
  String.Pos.Raw.isValid_iff_exists_append.mpr ⟨a, b, rfl, rfl⟩

/-- a piece of a source is covered by the span that its length and the length before it give -/
theorem Span.covers_of_append {source before text after : String} {s : Span}
    (h : source = before ++ text ++ after) (hstart : s.start = before.utf8ByteSize)
    (hstop : s.stop = before.utf8ByteSize + text.utf8ByteSize) : s.Covers source text := by
  have hlength : (before ++ text).utf8ByteSize = s.stop := by
    rw [hstop, String.utf8ByteSize_append]
  subst h
  refine ⟨by omega, ?_, ?_, ?_⟩
  · rw [hstart, String.append_assoc]
    exact isValid_of_append before (text ++ after)
  · rw [← hlength]
    exact isValid_of_append (before ++ text) after
  · have hsize : s.stop = (before.toByteArray ++ text.toByteArray).size := by
      rw [ByteArray.size_append, String.size_toByteArray, String.size_toByteArray, hstop]
    rw [String.toByteArray_append, String.toByteArray_append, hsize,
      ByteArray.extract_append_size_left]
    refine (ByteArray.extract_append_eq_right ?_ ?_).symm
    · rw [hstart, String.size_toByteArray]
    · rw [ByteArray.size_append]

theorem Text.byteLength_toList (s : String) : byteLength s.toList = s.utf8ByteSize := by
  rw [← utf8ByteSize_ofList, String.ofList_toList]

theorem Span.covers_of_toList {source : String} {before text after : List Char} {s : Span}
    (h : source.toList = before ++ (text ++ after)) (hstart : s.start = byteLength before)
    (hstop : s.stop = byteLength before + byteLength text) :
    s.Covers source (String.ofList text) := by
  have hsource : source = String.ofList before ++ String.ofList text ++ String.ofList after := by
    rw [← String.ofList_append, ← String.ofList_append, List.append_assoc, ← h, String.ofList_toList]
  refine covers_of_append hsource ?_ ?_
  · rw [utf8ByteSize_ofList, hstart]
  · rw [utf8ByteSize_ofList, utf8ByteSize_ofList, hstop]

/-! ## tokens in a row -/

namespace Tiles

variable {offset : Nat} {cs : List Char} {t : Token} {ts us vs : List Token}

/-- the first token, as long as no offset is cut down -/
theorem cons_cases (h : Tiles offset cs (t :: ts))
    (hsize : offset + byteLength cs ≤ Span.maxOffset) :
    ∃ gap text rest, cs = gap ++ (text ++ rest) ∧ Gap False gap ∧ Spells text t.kind ∧
      EndsBefore t.kind rest ∧
      t.span = ⟨offset + byteLength gap, offset + byteLength gap + byteLength text⟩ ∧
      Tiles (offset + byteLength gap + byteLength text) rest ts := by
  cases h with
  | @token _ gap text rest k _ hgap hspells hends htail =>
    rw [byteLength_append, byteLength_append] at hsize
    refine ⟨gap, text, rest, rfl, hgap, hspells, hends, ?_, htail⟩
    exact Span.ofRange_of_le (by omega) (by omega)

theorem nil_cases (h : Tiles offset cs []) : Gap True cs := by
  cases h with
  | last hgap => exact hgap

/-- no token starts before the text -/
theorem le_start (h : Tiles offset cs ts) (hsize : offset + byteLength cs ≤ Span.maxOffset) :
    ∀ u ∈ ts, offset ≤ u.span.start := by
  induction ts generalizing offset cs with
  | nil => exact List.forall_mem_nil _
  | cons t ts ih =>
    obtain ⟨gap, text, rest, rfl, _, _, _, hspan, htail⟩ := h.cons_cases hsize
    rw [byteLength_append, byteLength_append] at hsize
    refine List.forall_mem_cons.mpr ⟨?_, fun u hu => ?_⟩
    · rw [hspan]
      exact Nat.le_add_right _ _
    · have hle := ih htail (by omega) u hu
      omega

/-- a token starts where the one before it has ended, or later -/
theorem pairwise (h : Tiles offset cs ts) (hsize : offset + byteLength cs ≤ Span.maxOffset) :
    ts.Pairwise fun t u => t.span.stop ≤ u.span.start := by
  induction ts generalizing offset cs with
  | nil => exact .nil
  | cons t ts ih =>
    obtain ⟨gap, text, rest, rfl, _, _, _, hspan, htail⟩ := h.cons_cases hsize
    rw [byteLength_append, byteLength_append] at hsize
    have hrest : offset + byteLength gap + byteLength text + byteLength rest ≤ Span.maxOffset := by
      omega
    refine .cons (fun u hu => ?_) (ih htail hrest)
    rw [hspan]
    exact htail.le_start hrest u hu

/-- tokens that are cut in two lists cut the text in two, behind the last token of the first list -/
theorem split (h : Tiles offset cs (us ++ vs)) (hsize : offset + byteLength cs ≤ Span.maxOffset) :
    ∃ front rest, cs = front ++ rest ∧ Tiles offset front us ∧
      Tiles (offset + byteLength front) rest vs ∧
      (us.getLast?.map (·.span.stop)).getD offset = offset + byteLength front := by
  induction us generalizing offset cs with
  | nil => exact ⟨[], cs, rfl, .last .nil, h, rfl⟩
  | cons u us ih =>
    cases h with
    | @token _ gap text rest k _ hgap hspells hends htail =>
      rw [byteLength_append, byteLength_append] at hsize
      obtain ⟨front, rest, rfl, hfront, hrest, hlast⟩ := ih htail (by omega)
      have hlength : byteLength (gap ++ (text ++ front)) =
          byteLength gap + byteLength text + byteLength front := by
        rw [byteLength_append, byteLength_append, Nat.add_assoc]
      refine ⟨gap ++ (text ++ front), rest, by simp, ?_, ?_, ?_⟩
      · -- what comes behind the front does not matter to a token inside it
        exact .token hgap hspells hends.of_append hfront
      · rw [hlength, ← Nat.add_assoc, ← Nat.add_assoc]
        exact hrest
      · have hstop : (Span.ofRange (offset + byteLength gap)
            (offset + byteLength gap + byteLength text)).stop =
              offset + byteLength gap + byteLength text := by
          rw [Span.ofRange_of_le (by omega) (by omega)]
        rw [List.getLast?_cons, hlength]
        cases hus : us.getLast? with
        | none =>
          rw [hus] at hlast
          show (Span.ofRange _ _).stop = _
          rw [hstop]
          have hzero : offset + byteLength gap + byteLength text =
            offset + byteLength gap + byteLength text + byteLength front := hlast
          omega
        | some w =>
          rw [hus] at hlast
          have hw : w.span.stop = offset + byteLength gap + byteLength text + byteLength front :=
            hlast
          show w.span.stop = _
          omega

/-- the text of a single token -/
theorem single {text : List Char} {k : TokenKind} (h : Spells text k) (offset : Nat) :
    Tiles offset text [⟨k, .ofRange offset (offset + byteLength text)⟩] := by
  have htiles : Tiles offset ([] ++ (text ++ [])) [(tokenOf (offset + 0) text k []).1] :=
    .token .nil h .nil (.last .nil)
  rw [List.append_nil, List.nil_append] at htiles
  exact htiles

end Tiles

/-! ## the whole source -/

/-- from the end of the tokens `us` to the start of the tokens `vs`, in a source of `size` bytes -/
def between (size : Nat) (us vs : List Token) : Span :=
  ⟨(us.getLast?.map (·.span.stop)).getD 0, (vs.head?.map (·.span.start)).getD size⟩

/-- the tokens of a source and the gaps around them are the source -/
structure Tiled (source : String) (ts : List Token) : Prop where
  nonempty : ∀ t ∈ ts, t.span.start < t.span.stop ∧ t.span.stop ≤ source.utf8ByteSize
  ordered : ts.Pairwise fun t u => t.span.stop ≤ u.span.start
  /-- a token is found in its own text alone -/
  alone : ∀ t ∈ ts, ∃ text, t.span.Covers source text ∧ lex text = .ok [⟨t.kind, ⟨0, t.span.length⟩⟩]
  /-- the text before, between or behind the tokens is a gap -/
  gaps : ∀ us vs, ts = us ++ vs → ∃ gap,
    (between source.utf8ByteSize us vs).Covers source gap ∧ Gap (vs = []) gap.toList
  /-- a number, a keyword or a symbol ends at a delimiter or at the end of the source -/
  words : ∀ t ∈ ts, t.kind.isWord = true → ∃ rest,
    (Span.mk t.span.stop source.utf8ByteSize).Covers source rest ∧ AtomEnded rest.toList

theorem tiles_of_lex {source : String} {ts : List Token} (h : lex source = .ok ts) :
    Tiles 0 source.toList ts := lexFrom_ok_iff.mp h

theorem Text.byteLength_le_maxOffset {source : String} (h : source.utf8ByteSize < 2 ^ 32) :
    0 + byteLength source.toList ≤ Span.maxOffset := by
  rw [byteLength_toList, Span.maxOffset]
  omega

/-- where a token of a source stands -/
theorem exists_text_of_mem {source : String} (hsize : source.utf8ByteSize < 2 ^ 32)
    {ts : List Token} (h : lex source = .ok ts) {t : Token} (ht : t ∈ ts) :
    ∃ before text after, source.toList = before ++ (text ++ after) ∧ Spells text t.kind ∧
      EndsBefore t.kind after ∧
      t.span = ⟨byteLength before, byteLength before + byteLength text⟩ := by
  obtain ⟨us, vs, rfl⟩ := List.append_of_mem ht
  have hbound := byteLength_le_maxOffset hsize
  obtain ⟨front, rest, hcs, _, hrest, _⟩ := (tiles_of_lex h).split hbound
  rw [hcs, byteLength_append] at hbound
  obtain ⟨gap, text, after, rfl, _, hspells, hends, hspan, _⟩ := hrest.cons_cases (by omega)
  refine ⟨front ++ gap, text, after, by rw [hcs, List.append_assoc], hspells, hends, ?_⟩
  rw [hspan, byteLength_append, Nat.zero_add]

theorem between_covers {source : String} (hsize : source.utf8ByteSize < 2 ^ 32) {us vs : List Token}
    (h : lex source = .ok (us ++ vs)) : ∃ gap,
      (between source.utf8ByteSize us vs).Covers source gap ∧ Gap (vs = []) gap.toList := by
  have hbound := byteLength_le_maxOffset hsize
  obtain ⟨front, rest, hcs, _, hrest, hlast⟩ := (tiles_of_lex h).split hbound
  have hlength : byteLength source.toList = byteLength front + byteLength rest := by
    rw [hcs, byteLength_append]
  rw [Nat.zero_add] at hlast
  cases vs with
  | nil =>
    have hsource : source.toList = front ++ (rest ++ []) := by rw [hcs, List.append_nil]
    refine ⟨String.ofList rest, Span.covers_of_toList hsource hlast ?_, ?_⟩
    · show source.utf8ByteSize = _
      rw [← byteLength_toList, hlength]
    · rw [String.toList_ofList]
      exact hrest.nil_cases.mono fun _ => rfl
  | cons v vs =>
    obtain ⟨gap, text, after, rfl, hgap, _, _, hspan, _⟩ := hrest.cons_cases (by omega)
    refine ⟨String.ofList gap, Span.covers_of_toList hcs hlast ?_, ?_⟩
    · show v.span.start = _
      rw [hspan, Nat.zero_add]
    · rw [String.toList_ofList]
      exact hgap.mono False.elim

/-- **The tokens tile the source.**  They are nonempty, in order and apart, everything around them is
blanks and comments, and each of them is found again in its own text. -/
theorem lex_tiled {source : String} (hsize : source.utf8ByteSize < 2 ^ 32) {ts : List Token}
    (h : lex source = .ok ts) : Tiled source ts := by
  have hbound := byteLength_le_maxOffset hsize
  refine ⟨fun t ht => ?_, (tiles_of_lex h).pairwise hbound, fun t ht => ?_, ?_, fun t ht hword => ?_⟩
  · obtain ⟨before, text, after, hcs, hspells, _, hspan⟩ := exists_text_of_mem hsize h ht
    have hpos := byteLength_pos hspells.ne_nil
    have hlength := byteLength_toList source
    rw [hcs, byteLength_append, byteLength_append] at hlength
    rw [hspan]
    constructor
    · show byteLength before < byteLength before + byteLength text
      omega
    · show byteLength before + byteLength text ≤ _
      omega
  · obtain ⟨before, text, after, hcs, hspells, _, hspan⟩ := exists_text_of_mem hsize h ht
    refine ⟨String.ofList text, Span.covers_of_toList hcs (by rw [hspan]) (by rw [hspan]), ?_⟩
    rw [hcs, byteLength_append, byteLength_append] at hbound
    have hlex := lexFrom_of_tiles (.single hspells 0)
    have hlength : t.span.length = byteLength text := by
      rw [hspan]
      exact Nat.add_sub_cancel_left _ _
    rw [Span.ofRange_of_le (Nat.zero_le _) (by omega), Nat.zero_add] at hlex
    rw [lex, String.toList_ofList, hlex, hlength]
  · intro us vs hts
    rw [hts] at h
    exact between_covers hsize h
  · obtain ⟨before, text, after, hcs, _, hends, hspan⟩ := exists_text_of_mem hsize h ht
    have hlength := byteLength_toList source
    rw [hcs, byteLength_append, byteLength_append] at hlength
    have hsource : source.toList = before ++ text ++ (after ++ []) := by
      rw [hcs, List.append_nil, List.append_assoc]
    refine ⟨String.ofList after, Span.covers_of_toList hsource ?_ ?_, ?_⟩
    · rw [hspan, byteLength_append]
    · show source.utf8ByteSize = _
      rw [byteLength_append]
      omega
    · rw [String.toList_ofList]
      exact hends.word hword

/-- a sigil, a symbol that a comment ends, a string with an escape, and a number -/
theorem lex_tiled_of_comment_and_string :
    let source := "~@a;é\n,\"é\\n\" -1 ;"
    let ts : List Token := [⟨.sigil .splice, ⟨0, 2⟩⟩, ⟨.symbol "a", ⟨2, 3⟩⟩,
      ⟨.str "é\n", ⟨8, 14⟩⟩, ⟨.int (-1), ⟨15, 17⟩⟩]
    source.utf8ByteSize < 2 ^ 32 ∧ lex source = .ok ts ∧ Tiled source ts := by
  intro source ts
  have hsize : source.utf8ByteSize < 2 ^ 32 := by decide
  have hlex : lex source = .ok ts := by decide +kernel
  exact ⟨hsize, hlex, lex_tiled hsize hlex⟩

end TraceFront
