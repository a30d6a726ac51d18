import TraceFront.Proofs.Number.Integer
import TraceFront.Proofs.Token.Symbols

/-!
# Printed text is cut into the tokens that it shows

A printed term is a row of brackets, single spaces and atoms.  What the lexer makes of such a row does
not depend on the offset where it starts, spans apart, and so the row can be taken piece by piece.

* `LexesTo`             a text and the kinds of its tokens;
* `LeadsTo`             a text, the kinds of its first tokens, and the text behind them, which may hold
                        more tokens or an error;
* `LeadsTo.token`       a token in front of a text, from which come `opening`, `closing`, `atom` and
                        `quoted`;
* `LeadsTo.trans`       one row of tokens in front of another;
* `stringBody_escapes`  the escapes of a text are read as the text.

An atom ends only where a delimiter or the end follows, which is `AtomEnded` of the text behind it.
-/

namespace TraceFront

open Number Text

/-! ## texts and their tokens -/

/-- wherever the text starts, its tokens have these kinds -/
def LexesTo (cs : List Char) (ks : List TokenKind) : Prop :=
  ∀ offset, ∃ ts, lexFrom ⟨offset, cs⟩ = .ok ts ∧ ts.map (·.kind) = ks

/-- no atom can go on into the text -/
def AtomEnded (cs : List Char) : Prop := ∀ c ∈ cs.head?, endsAtom c = true

theorem atomEnded_nil : AtomEnded [] := by
  intro c hc
  cases hc

theorem atomEnded_cons {c : Char} (h : endsAtom c = true) (cs : List Char) :
    AtomEnded (c :: cs) := by
  intro d hd
  cases hd
  exact h

theorem lexFrom_eq (p : Cursor) : lexFrom p =
    match nextToken p with
    | none => .ok []
    | some (.error e) => .error e
    | some (.ok (t, q)) => (lexFrom q).map (t :: ·) := by
  rw [lexFrom]
  split
  · rename_i h
    rw [h]
  · rename_i h
    rw [h]
  · rename_i h
    rw [h]
    simp only
    split
    · rename_i hq
      rw [hq]
      rfl
    · rename_i hq
      rw [hq]
      rfl

theorem lexFrom_of_none {p : Cursor} (h : nextToken p = none) : lexFrom p = .ok [] := by
  rw [lexFrom_eq, h]

theorem lexFrom_of_token {p q : Cursor} {t : Token} (h : nextToken p = some (.ok (t, q)))
    {ts : List Token} (hq : lexFrom q = .ok ts) : lexFrom p = .ok (t :: ts) := by
  rw [lexFrom_eq, h]
  show (lexFrom q).map _ = _
  rw [hq]
  rfl

theorem nextToken_blank {c : Char} (h : isBlank c = true) (offset : Nat) (cs : List Char) :
    nextToken ⟨offset, c :: cs⟩ = nextToken ⟨offset + c.utf8Size, cs⟩ := by
  have hskip : skipBlanks false offset (c :: cs) = skipBlanks false (offset + c.utf8Size) cs := by
    rw [skipBlanks, if_neg Bool.false_ne_true, if_pos h]
  rw [nextToken, nextToken, hskip]

theorem nextToken_start {c : Char} (hb : isBlank c = false) (hs : c ≠ ';') (offset : Nat)
    (cs : List Char) : nextToken ⟨offset, c :: cs⟩ = some (tokenAt offset c cs) := by
  have hskip : skipBlanks false offset (c :: cs) = ⟨offset, c :: cs⟩ := by
    rw [skipBlanks, if_neg Bool.false_ne_true, hb, if_neg Bool.false_ne_true, if_neg hs]
  rw [nextToken, hskip]

theorem LexesTo.nil : LexesTo [] [] := fun _ => ⟨[], lexFrom_of_none rfl, rfl⟩

/-- wherever the text starts, tokens of these kinds come first, and then what the lexer makes of
`rest` -/
def LeadsTo (cs : List Char) (ks : List TokenKind) (rest : List Char) : Prop :=
  ∀ offset, ∃ ts after, ts.map (·.kind) = ks ∧
    lexFrom ⟨offset, cs⟩ = (lexFrom ⟨after, rest⟩).map (ts ++ ·)

namespace LeadsTo

variable {cs ds rest : List Char} {ks ls : List TokenKind}

theorem refl (cs : List Char) : LeadsTo cs [] cs := by
  intro offset
  refine ⟨[], offset, rfl, ?_⟩
  cases lexFrom ⟨offset, cs⟩ with
  | ok ts => rfl
  | error e => rfl

theorem trans (h : LeadsTo cs ks ds) (h' : LeadsTo ds ls rest) : LeadsTo cs (ks ++ ls) rest := by
  intro offset
  obtain ⟨ts, middle, hts, hcs⟩ := h offset
  obtain ⟨us, after, hus, hds⟩ := h' middle
  refine ⟨ts ++ us, after, by rw [List.map_append, hts, hus], ?_⟩
  rw [hcs, hds]
  cases lexFrom ⟨after, rest⟩ with
  | ok vs => exact congrArg Except.ok (List.append_assoc ts us vs).symm
  | error e => rfl

theorem lexesTo (h : LeadsTo cs ks rest) (h' : LexesTo rest ls) : LexesTo cs (ks ++ ls) := by
  intro offset
  obtain ⟨ts, after, hts, hcs⟩ := h offset
  obtain ⟨us, hrest, hus⟩ := h' after
  refine ⟨ts ++ us, ?_, by rw [List.map_append, hts, hus]⟩
  rw [hcs, hrest]
  rfl

theorem blank {c : Char} (hc : isBlank c = true) (cs : List Char) : LeadsTo (c :: cs) [] cs := by
  intro offset
  have hskip : lexFrom ⟨offset, c :: cs⟩ = lexFrom ⟨offset + c.utf8Size, cs⟩ := by
    rw [lexFrom_eq, nextToken_blank hc, ← lexFrom_eq]
  rw [hskip]
  exact refl cs (offset + c.utf8Size)

theorem token {c : Char} {k : TokenKind} (hb : isBlank c = false) (hs : c ≠ ';')
    (hc : ∀ offset, ∃ t after, tokenAt offset c cs = .ok (t, ⟨after, rest⟩) ∧ t.kind = k) :
    LeadsTo (c :: cs) [k] rest := by
  intro offset
  obtain ⟨t, after, htoken, hkind⟩ := hc offset
  refine ⟨[t], after, congrArg (fun kind => [kind]) hkind, ?_⟩
  rw [lexFrom_eq, nextToken_start hb hs, htoken]
  rfl

theorem opening (shape : Delimiter) (cs : List Char) :
    LeadsTo (shape.opening :: cs) [.opening shape] cs := by
  cases shape with
  | round => exact token rfl (by decide) fun offset => ⟨_, _, rfl, rfl⟩
  | square => exact token rfl (by decide) fun offset => ⟨_, _, rfl, rfl⟩

theorem closing (shape : Delimiter) (cs : List Char) :
    LeadsTo (shape.closing :: cs) [.closing shape] cs := by
  cases shape with
  | round => exact token rfl (by decide) fun offset => ⟨_, _, rfl, rfl⟩
  | square => exact token rfl (by decide) fun offset => ⟨_, _, rfl, rfl⟩

end LeadsTo

theorem atomEnded_closing (shape : Delimiter) (cs : List Char) :
    AtomEnded (shape.closing :: cs) := by
  refine atomEnded_cons ?_ cs
  cases shape with
  | round => rfl
  | square => rfl

/-! ## atoms -/

/-- the text of an atom, and what it is -/
structure AtomText (cs : List Char) (k : TokenKind) : Prop where
  ne_nil : cs ≠ []
  atomChars : ∀ c ∈ cs, isAtomChar c = true
  not_sigil : cs.head? ≠ some '~'
  classified : ∀ span, classify cs span = .ok k

theorem ne_of_isAtomChar {c d : Char} (hc : isAtomChar c = true) (hd : isAtomChar d = false) :
    c ≠ d := by
  rintro rfl
  rw [hc] at hd
  cases hd

theorem isBlank_of_isAtomChar {c : Char} (h : isAtomChar c = true) : isBlank c = false := by
  simp only [isAtomChar, endsAtom, Bool.not_eq_true', Bool.or_eq_false_iff] at h
  exact h.1.1.1.1.1.1

theorem tokenAt_atom {c : Char} (h : isAtomChar c = true) (hc : c ≠ '~') (offset : Nat)
    (cs : List Char) : tokenAt offset c cs = atomToken offset (c :: cs) := by
  rw [tokenAt, if_neg (ne_of_isAtomChar h rfl), if_neg (ne_of_isAtomChar h rfl),
    if_neg (ne_of_isAtomChar h rfl), if_neg (ne_of_isAtomChar h rfl), if_neg hc,
    if_neg (ne_of_isAtomChar h rfl)]

theorem takeWhile_atom {cs rest : List Char} (h : ∀ c ∈ cs, isAtomChar c = true)
    (hrest : AtomEnded rest) : (cs ++ rest).takeWhile isAtomChar = cs := by
  rw [List.takeWhile_append_of_pos h]
  cases rest with
  | nil => exact List.append_nil _
  | cons c rest =>
    have hc : ¬isAtomChar c = true := by simp [isAtomChar, hrest c rfl]
    rw [List.takeWhile_cons_of_neg hc, List.append_nil]

theorem dropWhile_atom {cs rest : List Char} (h : ∀ c ∈ cs, isAtomChar c = true)
    (hrest : AtomEnded rest) : (cs ++ rest).dropWhile isAtomChar = rest := by
  rw [List.dropWhile_append_of_pos h]
  cases rest with
  | nil => rfl
  | cons c rest =>
    have hc : ¬isAtomChar c = true := by simp [isAtomChar, hrest c rfl]
    exact List.dropWhile_cons_of_neg hc

theorem LeadsTo.atom {cs rest : List Char} {k : TokenKind} (hk : AtomText cs k)
    (hrest : AtomEnded rest) : LeadsTo (cs ++ rest) [k] rest := by
  obtain ⟨c, ds, rfl⟩ := List.exists_cons_of_ne_nil hk.ne_nil
  have hc : isAtomChar c = true := hk.atomChars c List.mem_cons_self
  have hsigil : c ≠ '~' := fun heq => hk.not_sigil (congrArg some heq)
  refine LeadsTo.token (isBlank_of_isAtomChar hc) (ne_of_isAtomChar hc rfl) ?_
  intro offset
  refine ⟨⟨k, .ofRange offset (offset + byteLength (c :: ds))⟩, offset + byteLength (c :: ds), ?_, rfl⟩
  show tokenAt offset c (ds ++ rest) = _
  rw [tokenAt_atom hc hsigil, ← List.cons_append, atomToken, takeWhile_atom hk.atomChars hrest,
    dropWhile_atom hk.atomChars hrest, hk.classified]

theorem SymbolText.atom {n : String} (h : SymbolText n.toList) : AtomText n.toList (.symbol n) := by
  refine ⟨h.ne_nil, h.atomChars, h.not_sigil, ?_⟩
  intro span
  have hkey := h.not_keyword
  unfold classify
  rw [h.not_number, if_neg Bool.false_ne_true]
  split
  · rename_i c d ds hcs
    have hc : c ≠ ':' := by
      rintro rfl
      exact hkey d ds hcs
    rw [if_neg hc, String.ofList_toList]
  · rw [String.ofList_toList]

theorem KeywordText.atom {k : String} (h : KeywordText k.toList) :
    AtomText (":" ++ k).toList (.keyword k) := by
  have hlist : (":" ++ k).toList = ':' :: k.toList := by rw [String.toList_append]; rfl
  obtain ⟨d, ds, hk⟩ := List.exists_cons_of_ne_nil h.ne_nil
  rw [hlist]
  refine ⟨List.cons_ne_nil _ _, List.forall_mem_cons.mpr ⟨by decide, h.atomChars⟩, ?_, ?_⟩
  · show some ':' ≠ some '~'
    decide
  intro span
  have hnumber : startsNumber (':' :: d :: ds) = false := rfl
  rw [hk, classify, hnumber, if_neg Bool.false_ne_true]
  show Except.ok (TokenKind.keyword (String.ofList (d :: ds))) = _
  rw [← hk, String.ofList_toList]

theorem isAtomChar_of_isDigit {c : Char} (h : c.isDigit = true) : isAtomChar c = true := by
  have hne : ∀ {d : Char}, d.isDigit = false → c ≠ d := by
    rintro d hd rfl
    rw [h] at hd
    cases hd
  exact isAtomChar_of_start (by simp [isBlank, hne]) (hne rfl) (hne rfl) (hne rfl) (hne rfl) (hne rfl)
    (hne rfl)

/-- an integer is written with a digit, or with a minus and a digit, in front -/
theorem atomText_int (n : Int64) : AtomText (renderInt64 n).toList (.int n) := by
  have hread := readInt64?_renderInt64 n
  have hdigits : ∀ c ∈ n.toInt.natAbs.repr.toList, isAtomChar c = true :=
    fun c hc => isAtomChar_of_isDigit (isDigit_of_mem_repr hc)
  obtain ⟨d, ds, hds, hd⟩ := exists_toList_repr n.toInt.natAbs
  have classified : startsNumber (renderInt64 n).toList = true →
      ∀ span, classify (renderInt64 n).toList span = .ok (.int n) := by
    intro hnumber span
    unfold classify
    rw [if_pos hnumber, readNumber?, hread]
  unfold renderInt64 at classified ⊢
  by_cases h : n.toInt < 0
  · rw [toList_renderInt_of_neg h] at classified ⊢
    refine ⟨List.cons_ne_nil _ _, List.forall_mem_cons.mpr ⟨by decide, hdigits⟩, ?_, classified ?_⟩
    · show some '-' ≠ some '~'
      decide
    · rw [hds]
      simp [startsNumber, hd]
  · rw [toList_renderInt_of_nonneg h] at classified ⊢
    have hne : d ≠ '~' := by
      rintro rfl
      cases hd
    have hnumber : startsNumber (d :: ds) = true := startsNumber_digit hd ds
    refine ⟨by rw [hds]; exact List.cons_ne_nil _ _, hdigits, ?_, classified (by rw [hds]; exact hnumber)⟩
    rw [hds]
    exact fun heq => hne (Option.some.inj heq)

/-! ## strings -/

theorem unescape?_of_shortEscape? {c e : Char} (h : shortEscape? c = some e) :
    unescape? e = some c := by
  unfold shortEscape? at h
  iterate 6
    split at h
    · rename_i hc
      cases h
      rw [hc]
      rfl
  cases h

theorem ne_of_shortEscape?_none {c : Char} (h : shortEscape? c = none) : c ≠ '"' ∧ c ≠ '\\' := by
  constructor
  · rintro rfl
    cases h
  · rintro rfl
    cases h

/-- one escape is read as its character -/
theorem stringBody_escape {c : Char} (hc : needsCode c = false) (start offset : Nat)
    (read cs : List Char) :
    ∃ after, stringBody start offset read (escape c ++ cs) = stringBody start after (c :: read) cs := by
  cases hs : shortEscape? c with
  | some e =>
    have hescape : escape c = ['\\', e] := by simp [escape, hs]
    refine ⟨offset + 1 + e.utf8Size, ?_⟩
    rw [hescape]
    show stringBody start offset read ('\\' :: e :: cs) = _
    rw [stringBody.eq_def]
    simp only [unescape?_of_shortEscape? hs]
    rw [if_neg (by decide), if_pos trivial]
  | none =>
    obtain ⟨hquote, hslash⟩ := ne_of_shortEscape?_none hs
    refine ⟨offset + c.utf8Size, ?_⟩
    rw [escape_of_plain hs hc]
    show stringBody start offset read (c :: cs) = _
    rw [stringBody.eq_def]
    simp only [if_neg hquote, if_neg hslash]

/-- escapes at the start of a string are read as their characters -/
theorem stringBody_escapes {cs : List Char} (h : ∀ c ∈ cs, needsCode c = false) (start : Nat)
    (rest : List Char) : ∀ (offset : Nat) (read : List Char), ∃ after,
      stringBody start offset read (cs.flatMap escape ++ rest) =
        stringBody start after (cs.reverse ++ read) rest := by
  induction cs with
  | nil => exact fun offset read => ⟨offset, rfl⟩
  | cons c cs ih =>
    obtain ⟨hc, hcs⟩ := List.forall_mem_cons.mp h
    intro offset read
    obtain ⟨offset', hstep⟩ := stringBody_escape hc start offset read (cs.flatMap escape ++ rest)
    obtain ⟨after, hrun⟩ := ih hcs offset' (c :: read)
    refine ⟨after, ?_⟩
    rw [List.flatMap_cons, List.append_assoc, hstep, hrun, List.reverse_cons, List.append_assoc]
    rfl

theorem toList_quoted_append (s : String) (rest : List Char) :
    (Text.quoted s).toList ++ rest = '"' :: (s.toList.flatMap escape ++ '"' :: rest) := by
  rw [toList_quoted, List.cons_append, List.cons_append, List.append_assoc]
  rfl

theorem LeadsTo.quoted {s : String} (hs : ∀ c ∈ s.toList, needsCode c = false) (rest : List Char) :
    LeadsTo ((Text.quoted s).toList ++ rest) [.str s] rest := by
  rw [toList_quoted_append]
  refine LeadsTo.token rfl (by decide) ?_
  intro offset
  obtain ⟨after, hbody⟩ := stringBody_escapes hs offset ('"' :: rest) (offset + 1) []
  refine ⟨⟨.str s, .ofRange offset (after + 1)⟩, after + 1, ?_, rfl⟩
  have hclose : stringBody offset after (s.toList.reverse ++ []) ('"' :: rest) =
      .ok (s, ⟨after + 1, rest⟩) := by
    unfold stringBody
    rw [if_pos rfl, List.append_nil, List.reverse_reverse, String.ofList_toList]
  show stringToken offset (s.toList.flatMap escape ++ '"' :: rest) = _
  rw [stringToken, hbody, hclose]

end TraceFront
