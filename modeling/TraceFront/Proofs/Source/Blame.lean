import TraceFront.Proofs.Datum.Faults
import TraceFront.Proofs.Token.Tiling
import TraceFront.Source

/-!
# The token that a reading error is about

An unfinished term keeps only the offset at which it starts, and its error covers one byte from
there.  That is the whole token for brackets and for the sigil `~`, and the first half of the sigil
`~@`.

* `ReadError.Blames`           the token that an error is about;
* `Rejection.exists_blamed`    a refusal is about a token, and where its error stands;
* `span_of_opening`, `span_of_sigil`   how wide the tokens are that start a term;
* `read_error_covers_token`    the error covers its token, except for the sigil `~@`.
-/

namespace TraceFront

open Text

/-- the token of `ts` that an error is about: the opening bracket of the innermost term that does
not end, the closing bracket that is the first fault, or a sigil before any fault that no term
follows -/
inductive ReadError.Blames (ts : List Token) : ReadError → Token → Prop
  | unclosed {us vs : List Token} {o : Token} {shape : Delimiter} (s : Span) :
      ts = us ++ o :: vs → o.kind = .opening shape → InnermostUnfinished o vs →
      Blames ts (.unclosed shape s) o
  | unexpectedClose {us : List Token} {c : Token} {shape : Delimiter} (s : Span) :
      FirstFault ts us c → c.kind = .closing shape → Blames ts (.unexpectedClose shape s) c
  | danglingSigil {us vs : List Token} {t : Token} {mark : Sigil} (s : Span) :
      ts = us ++ t :: vs → t.kind = .sigil mark → Viable (us ++ [t]) → Ended vs →
      Blames ts (.danglingSigil mark s) t

theorem ReadError.Blames.mem {ts : List Token} {e : ReadError} {t : Token} (h : e.Blames ts t) :
    t ∈ ts := by
  cases h with
  | unclosed s hts _ _ =>
    rw [hts]
    exact List.mem_append_right _ List.mem_cons_self
  | unexpectedClose s hfault _ =>
    exact hfault.beginning.subset (List.mem_append_right _ List.mem_cons_self)
  | danglingSigil s hts _ _ _ =>
    rw [hts]
    exact List.mem_append_right _ List.mem_cons_self

/-- a refusal is about a closing bracket, which its error covers, or about a token that starts a
term, and then the error covers one byte -/
theorem Rejection.exists_blamed {ts : List Token} {e : ReadError} (h : Rejection ts e) :
    ∃ t, e.Blames ts t ∧
      ((∃ shape, t.kind = .closing shape) ∧ e.span = t.span ∨
        t.Opens ∧ e.span = ⟨t.span.start, t.span.start + 1⟩) := by
  cases h with
  | @sigilClosed us vs t c mark shape hus hc ht hk =>
    obtain ⟨hlast, htk⟩ := ht
    obtain ⟨ws, rfl⟩ := List.getLast?_eq_some_iff.mp hlast
    refine ⟨t, .danglingSigil _ ?_ htk hus (ended_closing hk vs), .inr ⟨.inr ⟨mark, htk⟩, rfl⟩⟩
    rw [List.append_assoc]
    rfl
  | @strayClosing us vs c shape hus hc _ hk =>
    exact ⟨c, .unexpectedClose _ (firstFault_of_viable hus hc) hk, .inl ⟨⟨shape, hk⟩, rfl⟩⟩
  | @sigilAtEnd us t mark hviable ht _ =>
    have hended : Ended [] := by
      rintro u ⟨⟩
    exact ⟨t, .danglingSigil _ rfl ht hviable hended, .inr ⟨.inr ⟨mark, ht⟩, rfl⟩⟩
  | @unclosed us vs o shape _ ho hinner =>
    exact ⟨o, .unclosed _ rfl ho hinner, .inr ⟨.inl ⟨shape, ho⟩, rfl⟩⟩

/-! ## widths -/

section
variable {source : String} (hsize : source.utf8ByteSize < 2 ^ 32) {ts : List Token}
  (hlex : lex source = .ok ts) {t : Token} (ht : t ∈ ts)
include hsize hlex ht

theorem span_of_opening {shape : Delimiter} (hk : t.kind = .opening shape) :
    t.span = ⟨t.span.start, t.span.start + 1⟩ := by
  obtain ⟨before, text, after, _, hspells, _, hspan⟩ := exists_text_of_mem hsize hlex ht
  have hwidth : byteLength text = 1 := by
    rw [hk] at hspells
    cases hspells with
    | opening shape => cases shape <;> rfl
    | atom hatom => cases hatom.isWord
  rw [hspan, hwidth]

theorem span_of_sigil {mark : Sigil} (hk : t.kind = .sigil mark) :
    t.span = ⟨t.span.start, t.span.start + mark.text.utf8ByteSize⟩ := by
  obtain ⟨before, text, after, _, hspells, _, hspan⟩ := exists_text_of_mem hsize hlex ht
  have hwidth : byteLength text = mark.text.utf8ByteSize := by
    rw [hk] at hspells
    cases hspells with
    | sigil mark => exact byteLength_toList _
    | atom hatom => cases hatom.isWord
  rw [hspan, hwidth]

end

/-! ## reading errors -/

theorem read_eq_error {source : String} {ts : List Token} (hlex : lex source = .ok ts)
    {e : SourceError} (h : read source = .error e) :
    ∃ e', e = .read e' ∧ readTokens ts = .error e' := by
  rw [read, hlex] at h
  cases hread : readTokens ts with
  | ok ds =>
    simp only [hread] at h
    cases h
  | error e' =>
    simp only [hread] at h
    cases h
    exact ⟨e', rfl, rfl⟩

/-- **A reading error points at its token.**  It covers the token that it is about from its first
byte on, and all of it unless the token is the sigil `~@`, of which it leaves the second byte
out. -/
theorem read_error_covers_token {source : String} (hsize : source.utf8ByteSize < 2 ^ 32)
    {ts : List Token} (hlex : lex source = .ok ts) {e : SourceError}
    (h : read source = .error e) :
    ∃ e' t, e = .read e' ∧ t ∈ ts ∧ e'.Blames ts t ∧
      (t.kind ≠ .sigil .splice → e.span = t.span) ∧
      (t.kind = .sigil .splice → t.span = ⟨e.span.start, e.span.stop + 1⟩) := by
  obtain ⟨e', rfl, hread⟩ := read_eq_error hlex h
  obtain ⟨t, hblames, hspan⟩ := (rejection_of_readTokens hread).exists_blamed
  refine ⟨e', t, rfl, hblames.mem, hblames, ?_⟩
  show (_ → e'.span = t.span) ∧ (_ → t.span = ⟨e'.span.start, e'.span.stop + 1⟩)
  rcases hspan with ⟨⟨shape, hk⟩, hspan⟩ | ⟨⟨shape, hk⟩ | ⟨mark, hk⟩, hspan⟩
  · refine ⟨fun _ => hspan, fun hsplice => ?_⟩
    cases hk.symm.trans hsplice
  · refine ⟨fun _ => hspan.trans (span_of_opening hsize hlex hblames.mem hk).symm,
      fun hsplice => ?_⟩
    cases hk.symm.trans hsplice
  · have hwidth := span_of_sigil hsize hlex hblames.mem hk
    rw [hspan]
    cases mark with
    | unquote => exact ⟨fun _ => hwidth.symm, fun hsplice => by cases hk.symm.trans hsplice⟩
    | splice => exact ⟨fun hne => absurd hk hne, fun _ => hwidth⟩

/-- an open bracket behind a character of two bytes, with a term behind a sigil inside -/
theorem read_error_covers_bracket :
    let source := "é (~@[1]"
    let ts : List Token := [⟨.symbol "é", ⟨0, 2⟩⟩, ⟨.opening .round, ⟨3, 4⟩⟩,
      ⟨.sigil .splice, ⟨4, 6⟩⟩, ⟨.opening .square, ⟨6, 7⟩⟩, ⟨.int 1, ⟨7, 8⟩⟩,
      ⟨.closing .square, ⟨8, 9⟩⟩]
    let e : SourceError := .read (.unclosed .round ⟨3, 4⟩)
    source.utf8ByteSize < 2 ^ 32 ∧ lex source = .ok ts ∧ read source = .error e ∧
      ∃ e' t, e = .read e' ∧ t ∈ ts ∧ e'.Blames ts t ∧
        (t.kind ≠ .sigil .splice → e.span = t.span) ∧
        (t.kind = .sigil .splice → t.span = ⟨e.span.start, e.span.stop + 1⟩) := by
  intro source ts e
  have hsize : source.utf8ByteSize < 2 ^ 32 := by decide
  have hlex : lex source = .ok ts := by decide +kernel
  have hread : read source = .error e := by decide +kernel
  exact ⟨hsize, hlex, hread, read_error_covers_token hsize hlex hread⟩

/-- the error about the sigil `~@` covers no token -/
theorem read_error_covers_no_token_of_splice :
    let source := "~@"
    let ts : List Token := [⟨.sigil .splice, ⟨0, 2⟩⟩]
    let e : SourceError := .read (.danglingSigil .splice ⟨0, 1⟩)
    source.utf8ByteSize < 2 ^ 32 ∧ lex source = .ok ts ∧ read source = .error e ∧
      ∀ t ∈ ts, e.span ≠ t.span := by
  intro source ts e
  have hlex : lex source = .ok ts := by decide +kernel
  have hread : read source = .error e := by decide +kernel
  refine ⟨by decide, hlex, hread, List.forall_mem_singleton.mpr ?_⟩
  show Span.mk 0 1 ≠ ⟨0, 2⟩
  decide

end TraceFront
