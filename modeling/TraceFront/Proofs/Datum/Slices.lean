import TraceFront.Proofs.Source.Shifting
import TraceFront.Proofs.Token.Tiling

/-!
# Every datum can be cut out of its source

The tokens of a datum are neighbours among the tokens of the source, so what the datum covers can be
cut out of the source and read by itself.

* `exists_slice`       neighbouring tokens are found in the text from the first to the last of them;
* `InOrder`            tokens that are nonempty, in order and apart;
* `Datum.Faithful`     what a datum covers, and where the datums inside it stand;
* `Datum.SigilWord`    the word in front of the term of a sigil, which is the only datum that covers
                       nothing;
* `Phrase.faithful`    the datums of a derivation, by recursion on it.
-/

set_option linter.unusedSectionVars false

namespace TraceFront

open Text Phrase

/-! ## neighbouring tokens -/

/-- the gap in front of the first token can be left out -/
theorem Tiles.drop_gap {offset : Nat} {cs : List Char} {t : Token} {ts : List Token}
    (h : Tiles offset cs (t :: ts)) (hsize : offset + byteLength cs ≤ Span.maxOffset) :
    ∃ gap rest, cs = gap ++ rest ∧ rest ≠ [] ∧ t.span.start = offset + byteLength gap ∧
      Tiles (offset + byteLength gap) rest (t :: ts) := by
  obtain ⟨_, _, _, _, _, _, _, hspan, _⟩ := h.cons_cases hsize
  cases h with
  | @token _ gap text rest k _ hgap hspells hends htail =>
    have hne : text ++ rest ≠ [] := fun heq => hspells.ne_nil (List.append_eq_nil_iff.mp heq).1
    rw [byteLength_append, byteLength_append] at hsize
    refine ⟨gap, text ++ rest, rfl, hne, ?_, .token .nil hspells hends htail⟩
    show (Span.ofRange _ _).start = _
    rw [Span.ofRange_of_le (by omega) (by omega)]

theorem exists_slice {source : String} (hsize : source.utf8ByteSize < 2 ^ 32) {ts us : List Token}
    (h : lex source = .ok ts) (hus : us <:+: ts) (hne : us ≠ []) :
    (extent us).start < (extent us).stop ∧ ∃ text, (extent us).Covers source text ∧
      ∃ vs, lex text = .ok vs ∧ vs.map (Token.relocate (Span.shift (extent us).start)) = us := by
  obtain ⟨before, after, rfl⟩ := hus
  rw [List.append_assoc] at h
  have hbound := byteLength_le_maxOffset hsize
  obtain ⟨front, rest, hcs, _, hrest, _⟩ := (tiles_of_lex h).split hbound
  rw [hcs, byteLength_append] at hbound
  obtain ⟨middle, back, rfl, hmiddle, _, hlast⟩ := hrest.split (by omega)
  rw [byteLength_append] at hbound
  obtain ⟨u, us, rfl⟩ := List.exists_cons_of_ne_nil hne
  obtain ⟨gap, text, rfl, htext, hstart, htiles⟩ := hmiddle.drop_gap (by omega)
  rw [byteLength_append] at hbound hlast
  have hpos := byteLength_pos htext
  have hextent : extent (u :: us) = ⟨byteLength (front ++ gap),
      byteLength (front ++ gap) + byteLength text⟩ := by
    have hstop : (extent (u :: us)).stop =
        0 + byteLength front + (byteLength gap + byteLength text) := by
      rw [← hlast, extent, List.getLast?_cons]
      rfl
    have hfirst : (extent (u :: us)).start = 0 + byteLength front + byteLength gap := hstart
    rw [byteLength_append]
    generalize extent (u :: us) = s at hstop hfirst ⊢
    obtain ⟨start, stop⟩ := s
    simp only at hstop hfirst
    subst hstop hfirst
    rw [Nat.zero_add, ← Nat.add_assoc]
  have hsource : source.toList = (front ++ gap) ++ (text ++ back) := by
    rw [hcs, List.append_assoc, List.append_assoc]
  have hcovers : (extent (u :: us)).Covers source (String.ofList text) :=
    Span.covers_of_toList hsource (by rw [hextent]) (by rw [hextent])
  refine ⟨?_, String.ofList text, hcovers, ?_⟩
  · rw [hextent]
    show byteLength (front ++ gap) < byteLength (front ++ gap) + byteLength text
    omega
  · -- the text is cut alike at the start of a source
    have hlex : lexFrom (Cursor.shift (byteLength (front ++ gap)) ⟨0, text⟩) = .ok (u :: us) := by
      rw [Cursor.shift, byteLength_append, ← Nat.add_assoc]
      exact lexFrom_of_tiles htiles
    have hfits : 0 + byteLength text + byteLength (front ++ gap) ≤ Span.maxOffset := by
      rw [byteLength_append]
      omega
    rw [lexFrom_shift _ _ hfits] at hlex
    rw [hextent, lex, String.toList_ofList]
    cases hvs : lexFrom ⟨0, text⟩ with
    | error e =>
      rw [hvs] at hlex
      cases hlex
    | ok vs =>
      rw [hvs] at hlex
      exact ⟨vs, rfl, Except.ok.inj hlex⟩

/-- the datum of neighbouring tokens is read from the text that it covers -/
theorem exists_reading {source : String} (hsize : source.utf8ByteSize < 2 ^ 32) {ts : List Token}
    (h : lex source = .ok ts) {p : Phrase} (hp : p.tokens <:+: ts) :
    ∃ text, p.datum.span.Covers source text ∧
      ∃ c, read text = .ok [c] ∧ c.shift p.datum.span.start = p.datum := by
  obtain ⟨_, text, hcovers, vs, hlex, hvs⟩ := exists_slice hsize h hp p.tokens_ne_nil
  rw [← span_datum] at hcovers hvs
  have hread : readTokens p.tokens = .ok [p.datum] := by
    have hall := readTokens_tokensAll [p]
    rw [tokensAll, tokensAll, List.append_nil] at hall
    exact hall
  rw [← hvs, readTokens_shift] at hread
  refine ⟨text, hcovers, ?_⟩
  rw [read, hlex]
  show ∃ c, (readTokens vs).mapError SourceError.read = .ok [c] ∧ _
  cases hds : readTokens vs with
  | error e =>
    rw [hds] at hread
    cases hread
  | ok ds =>
    rw [hds] at hread
    obtain ⟨c, cs, rfl, hc, hcs⟩ := List.map_eq_cons_iff.mp (Except.ok.inj hread)
    obtain rfl := List.map_eq_nil_iff.mp hcs
    exact ⟨c, rfl, hc⟩

/-! ## tokens in order -/

/-- the tokens are nonempty, in order and apart -/
structure InOrder (ts : List Token) : Prop where
  nonempty : ∀ t ∈ ts, t.span.start < t.span.stop
  ordered : ts.Pairwise fun t u => t.span.stop ≤ u.span.start

theorem InOrder.sublist {ts us : List Token} (h : InOrder ts) (hus : us.Sublist ts) : InOrder us :=
  ⟨fun t ht => h.nonempty t (hus.subset ht), h.ordered.sublist hus⟩

namespace Phrase

/-- a datum starts with one of its tokens and stops with one of them -/
theorem exists_first_and_last (p : Phrase) : ∃ t ∈ p.tokens, ∃ u ∈ p.tokens,
    p.datum.span = ⟨t.span.start, u.span.stop⟩ := by
  obtain ⟨t, ht⟩ := Option.ne_none_iff_exists'.mp (mt List.head?_eq_none_iff.mp p.tokens_ne_nil)
  obtain ⟨u, hu⟩ := Option.ne_none_iff_exists'.mp (mt List.getLast?_eq_none_iff.mp p.tokens_ne_nil)
  refine ⟨t, List.mem_of_head? ht, u, List.mem_of_getLast? hu, ?_⟩
  rw [span_datum, extent, ht, hu]
  rfl

theorem mem_tokensAll {t : Token} {p : Phrase} {ps : List Phrase} (hp : p ∈ ps)
    (ht : t ∈ p.tokens) :
    t ∈ tokensAll ps := by
  induction ps with
  | nil => cases hp
  | cons q ps ih =>
    rw [tokensAll]
    rcases List.mem_cons.mp hp with rfl | hp
    · exact List.mem_append_left _ ht
    · exact List.mem_append_right _ (ih hp)

theorem datums_eq_map (ps : List Phrase) : datums ps = ps.map datum := by
  induction ps with
  | nil => rfl
  | cons p ps ih => rw [datums, ih, List.map_cons]

/-- datums of derivations that follow each other stand one behind the other -/
theorem pairwise_datums {ps : List Phrase} (h : InOrder (tokensAll ps)) :
    (datums ps).Pairwise fun c d => c.span.stop ≤ d.span.start := by
  induction ps with
  | nil => exact .nil
  | cons p ps ih =>
    rw [tokensAll] at h
    obtain ⟨_, hrest, hcross⟩ := List.pairwise_append.mp h.ordered
    rw [datums]
    refine .cons ?_ (ih (h.sublist (List.sublist_append_right _ _)))
    intro d hd
    rw [datums_eq_map] at hd
    obtain ⟨q, hq, rfl⟩ := List.mem_map.mp hd
    obtain ⟨_, _, u, hu, hp⟩ := p.exists_first_and_last
    obtain ⟨t, ht, _, _, hqspan⟩ := q.exists_first_and_last
    rw [hp, hqspan]
    exact hcross u hu t (mem_tokensAll hq ht)

end Phrase

/-! ## datums -/

/-- the datum covers some text, which is read as this datum alone, and the datums inside it stand
inside that text one behind the other -/
structure Datum.Faithful (source : String) (d : Datum String) : Prop where
  nonempty : d.span.start < d.span.stop
  inside : ∀ c ∈ d.items, d.span.start ≤ c.span.start ∧ c.span.stop ≤ d.span.stop
  ordered : d.items.Pairwise fun b c => b.span.stop ≤ c.span.start
  alone : ∃ text, d.span.Covers source text ∧
    ∃ c, read text = .ok [c] ∧ c.shift d.span.start = d

/-- the datum is the word that stands for a sigil of the source, in front of a term inside `d` -/
def Datum.SigilWord (source : String) (d c : Datum String) : Prop :=
  ∃ (mark : Sigil) (start : Nat) (term : Datum String), mark.wrap start term ∈ d.subterms ∧
    c = .symbol mark.form.word ⟨start, start⟩ ∧
    (Span.mk start (start + mark.text.utf8ByteSize)).Covers source mark.text

theorem Datum.SigilWord.of_item {source : String} {b c d : Datum String} (hb : b ∈ d.items)
    (h : b.SigilWord source c) : d.SigilWord source c := by
  obtain ⟨mark, start, term, hterm, hc, hcovers⟩ := h
  exact ⟨mark, start, term, mem_subterms.mpr (.inr ⟨b, hb, hterm⟩), hc, hcovers⟩

/-- a sigil token is written as its mark -/
theorem covers_of_sigil {source : String} (hsize : source.utf8ByteSize < 2 ^ 32) {ts : List Token}
    (h : lex source = .ok ts) {t : Token} (ht : t ∈ ts) {mark : Sigil} (hk : t.kind = .sigil mark) :
    (Span.mk t.span.start (t.span.start + mark.text.utf8ByteSize)).Covers source mark.text := by
  obtain ⟨before, text, after, hcs, hspells, _, hspan⟩ := exists_text_of_mem hsize h ht
  have htext : text = mark.text.toList := by
    rw [hk] at hspells
    cases hspells with
    | sigil mark => rfl
    | atom hatom => cases hatom.isWord
  have hcovers := Span.covers_of_toList
    (s := ⟨t.span.start, t.span.start + mark.text.utf8ByteSize⟩) hcs
    (by rw [hspan]) (by rw [hspan, htext, byteLength_toList])
  rw [htext, String.ofList_toList] at hcovers
  exact hcovers

section
variable {source : String} (hsize : source.utf8ByteSize < 2 ^ 32) {ts : List Token}
  (h : lex source = .ok ts)
include hsize h

theorem inOrder_of_lex : InOrder ts := by
  have hbound := byteLength_le_maxOffset hsize
  refine ⟨fun t ht => ?_, (tiles_of_lex h).pairwise hbound⟩
  obtain ⟨before, text, after, _, hspells, _, hspan⟩ := exists_text_of_mem hsize h ht
  have hpos := byteLength_pos hspells.ne_nil
  rw [hspan]
  show byteLength before < byteLength before + byteLength text
  omega

namespace Phrase

theorem start_lt_stop {p : Phrase} (hp : p.tokens <:+: ts) :
    p.datum.span.start < p.datum.span.stop := by
  rw [span_datum]
  exact (exists_slice hsize h hp p.tokens_ne_nil).1

/-- a bracket has its items between its two tokens -/
theorem faithful_bracket {shape : Delimiter} {t u : Token} {ps : List Phrase}
    {ht : t.kind = .opening shape} {hu : u.kind = .closing shape}
    (hp : (bracket shape t ps u ht hu).tokens <:+: ts) :
    (bracket shape t ps u ht hu).datum.Faithful source := by
  have hspan : (bracket shape t ps u ht hu).datum.span = ⟨t.span.start, u.span.stop⟩ := by
    rw [span_datum, tokens, extent_bracket]
  have hitems : (bracket shape t ps u ht hu).datum.items = datums ps := by
    rw [datum_bracket, items_bracket]
  have horder : InOrder (t :: (tokensAll ps ++ [u])) :=
    (inOrder_of_lex hsize h).sublist hp.sublist
  obtain ⟨hfirst, hrest⟩ := List.pairwise_cons.mp horder.ordered
  obtain ⟨_, _, hlast⟩ := List.pairwise_append.mp hrest
  refine ⟨start_lt_stop hsize h hp, ?_, ?_, exists_reading hsize h hp⟩
  · rw [hitems, hspan, datums_eq_map]
    intro d hd
    obtain ⟨q, hq, rfl⟩ := List.mem_map.mp hd
    obtain ⟨v, hv, w, hw, hqspan⟩ := q.exists_first_and_last
    have hbefore := hfirst v (List.mem_append_left _ (mem_tokensAll hq hv))
    have hafter := hlast w (mem_tokensAll hq hw) u List.mem_cons_self
    have htwidth := horder.nonempty t List.mem_cons_self
    have huwidth := horder.nonempty u
      (List.mem_cons_of_mem _ (List.mem_append_right _ List.mem_cons_self))
    rw [hqspan]
    exact ⟨by show t.span.start ≤ v.span.start; omega, by show w.span.stop ≤ u.span.stop; omega⟩
  · rw [hitems]
    refine pairwise_datums (horder.sublist ?_)
    exact ((List.sublist_append_left _ _).cons t)

theorem faithful_sigil {mark : Sigil} {t : Token} {p : Phrase} {ht : t.kind = .sigil mark}
    (hp : (sigil mark t p ht).tokens <:+: ts) : (sigil mark t p ht).datum.Faithful source := by
  have hdatum := datum_sigil mark t p ht
  have hspan : (sigil mark t p ht).datum.span = ⟨t.span.start, p.datum.span.stop⟩ := by
    rw [hdatum]
    rfl
  have hitems : (sigil mark t p ht).datum.items =
      [.symbol mark.form.word ⟨t.span.start, t.span.start⟩, p.datum] := by
    rw [hdatum]
    rfl
  have horder : InOrder (t :: p.tokens) := (inOrder_of_lex hsize h).sublist hp.sublist
  obtain ⟨v, hv, w, _, hpspan⟩ := p.exists_first_and_last
  have hbefore : t.span.stop ≤ p.datum.span.start := by
    rw [hpspan]
    exact (List.pairwise_cons.mp horder.ordered).1 v hv
  have hwidth := horder.nonempty t List.mem_cons_self
  have hterm : p.datum.span.start < p.datum.span.stop :=
    start_lt_stop hsize h ((List.suffix_cons t p.tokens).isInfix.trans hp)
  have hword : t.span.start ≤ p.datum.span.stop := by omega
  have hinner : t.span.start ≤ p.datum.span.start := by omega
  refine ⟨start_lt_stop hsize h hp, ?_, ?_, exists_reading hsize h hp⟩
  · rw [hitems, hspan]
    exact List.forall_mem_cons.mpr ⟨⟨Nat.le_refl _, hword⟩,
      List.forall_mem_singleton.mpr ⟨hinner, Nat.le_refl _⟩⟩
  · rw [hitems]
    exact List.pairwise_pair.mpr hinner

mutual

/-- every datum of a derivation is faithful, or the word of a sigil -/
theorem faithful : ∀ p : Phrase, p.tokens <:+: ts →
    ∀ c ∈ p.datum.subterms, p.datum.SigilWord source c ∨ c.Faithful source
  | .atom t d hd, hp => by
    have hitems : d.items = [] := items_of_atom? hd
    intro c hc
    rcases Datum.mem_subterms.mp hc with heq | ⟨b, hb, _⟩
    · rw [heq]
      refine .inr ⟨start_lt_stop hsize h hp, ?_, ?_, exists_reading hsize h hp⟩
      · show ∀ c ∈ d.items, _
        rw [hitems]
        exact List.forall_mem_nil _
      · show d.items.Pairwise _
        rw [hitems]
        exact .nil
    · have hb : b ∈ d.items := hb
      rw [hitems] at hb
      cases hb
  | .bracket shape t ps u ht hu, hp => by
    have hitems : (bracket shape t ps u ht hu).datum.items = datums ps := by
      rw [datum_bracket, items_bracket]
    have hps : tokensAll ps <:+: ts := by
      refine List.IsInfix.trans ?_ hp
      exact ⟨[t], [u], rfl⟩
    intro c hc
    rcases Datum.mem_subterms.mp hc with rfl | ⟨b, hb, hcb⟩
    · exact .inr (faithful_bracket hsize h hp)
    · have hmem := hb
      rw [hitems] at hmem
      exact (faithfulAll ps hps b hmem c hcb).imp_left (Datum.SigilWord.of_item hb)
  | .sigil mark t p ht, hp => by
    have hterm : p.tokens <:+: ts := (List.suffix_cons t p.tokens).isInfix.trans hp
    have hdatum := datum_sigil mark t p ht
    have hitems : (sigil mark t p ht).datum.items =
        [.symbol mark.form.word ⟨t.span.start, t.span.start⟩, p.datum] := by
      rw [hdatum]
      rfl
    intro c hc
    rcases Datum.mem_subterms.mp hc with rfl | ⟨b, hb, hcb⟩
    · exact .inr (faithful_sigil hsize h hp)
    · have hmem := hb
      rw [hitems] at hmem
      rcases List.mem_cons.mp hmem with rfl | hmem
      · -- the word itself, which the sigil puts there
        obtain rfl : c = .symbol mark.form.word ⟨t.span.start, t.span.start⟩ :=
          List.mem_singleton.mp hcb
        refine .inl ⟨mark, t.span.start, p.datum, ?_, rfl, ?_⟩
        · rw [hdatum]
          exact Datum.mem_subterms.mpr (.inl rfl)
        · exact covers_of_sigil hsize h (hp.subset List.mem_cons_self) ht
      · obtain rfl := List.mem_singleton.mp hmem
        exact (faithful p hterm c hcb).imp_left (Datum.SigilWord.of_item hb)

theorem faithfulAll : ∀ ps : List Phrase, tokensAll ps <:+: ts → ∀ d ∈ datums ps,
    ∀ c ∈ d.subterms, d.SigilWord source c ∨ c.Faithful source
  | [], _ => List.forall_mem_nil _
  | p :: ps, hps => by
    have hfirst : p.tokens <:+: ts := (List.prefix_append _ _).isInfix.trans hps
    have hrest : tokensAll ps <:+: ts := (List.suffix_append _ _).isInfix.trans hps
    exact List.forall_mem_cons.mpr ⟨faithful p hfirst, faithfulAll ps hrest⟩

end

end Phrase

end

/-- **The places of datums are faithful.**  At any depth a datum covers a nonempty part of the
source, which is read as this datum alone, and holds the datums inside it one behind the other.  Only
the word that stands for a sigil covers nothing. -/
theorem read_faithful {source : String} (hsize : source.utf8ByteSize < 2 ^ 32)
    {ds : List (Datum String)} (h : read source = .ok ds) :
    ∀ d ∈ ds, ∀ c ∈ d.subterms, d.SigilWord source c ∨ c.Faithful source := by
  obtain ⟨ts, hlex, hread⟩ := read_eq_ok h
  obtain ⟨ps, rfl, rfl⟩ := exists_phrases hread
  exact Phrase.faithfulAll hsize hlex ps (List.infix_refl _)

/-- a term behind a sigil, in a list with a symbol of two bytes -/
theorem read_faithful_of_splice :
    let source := "(é ~@[1]) ; x"
    let d : Datum String := .list [.symbol "é" ⟨1, 3⟩, .list [.symbol "splice" ⟨4, 4⟩,
      .vector [.literal (.int 1) ⟨7, 8⟩] ⟨6, 9⟩] ⟨4, 9⟩] ⟨0, 10⟩
    source.utf8ByteSize < 2 ^ 32 ∧ read source = .ok [d] ∧
      ∀ c ∈ d.subterms, d.SigilWord source c ∨ c.Faithful source := by
  intro source d
  have hsize : source.utf8ByteSize < 2 ^ 32 := by decide
  have hread : read source = .ok [d] := by decide +kernel
  exact ⟨hsize, hread, read_faithful hsize hread d List.mem_cons_self⟩

end TraceFront
