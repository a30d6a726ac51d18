import TraceFront.Proofs.Token.Printing

/-!
# The lexical grammar

A text is a row of tokens with gaps before, between and behind them.  A gap holds blanks and
comments; only behind the last token may a comment lack the newline that ends it.  A token ends
where the text behind it cannot make it longer.

* `Gap`                 the text of a gap;
* `StringText`          a string from behind its opening quote on, and the characters it stands for;
* `Spells`              the text of a token;
* `EndsBefore`          no token of the kind goes on into the text;
* `Tiles`               a text from an offset on, and the tokens in it;
* `lexFrom_ok_iff`      the lexer finds exactly these tokens.

Both directions go token by token: `nextToken_of_spells` for a token that is written somewhere, and
`spells_of_nextToken` for a token that was found.
-/

namespace TraceFront

open Text

/-! ## gaps -/

/-- blanks and comments, where `final` allows the last comment to have no newline -/
inductive Gap (final : Prop) : List Char → Prop
  | nil : Gap final []
  | blank {c : Char} {cs : List Char} : isBlank c = true → Gap final cs → Gap final (c :: cs)
  | comment {text cs : List Char} : '\n' ∉ text → Gap final cs →
      Gap final (';' :: (text ++ '\n' :: cs))
  | unended {text : List Char} : final → '\n' ∉ text → Gap final (';' :: text)

/-- what is left of a gap behind the semicolon of a comment -/
def GapInComment (final : Prop) (cs : List Char) : Prop :=
  (∃ text ds, cs = text ++ '\n' :: ds ∧ '\n' ∉ text ∧ Gap final ds) ∨ final ∧ '\n' ∉ cs

theorem GapInComment.gap {final : Prop} {cs : List Char} (h : GapInComment final cs) :
    Gap final (';' :: cs) := by
  rcases h with ⟨text, ds, rfl, htext, hds⟩ | ⟨hfinal, hcs⟩
  · exact .comment htext hds
  · exact .unended hfinal hcs

theorem GapInComment.cons {final : Prop} {c : Char} {cs : List Char} (hc : c ≠ '\n')
    (h : GapInComment final cs) : GapInComment final (c :: cs) := by
  rcases h with ⟨text, ds, rfl, htext, hds⟩ | ⟨hfinal, hcs⟩
  · refine .inl ⟨c :: text, ds, rfl, ?_, hds⟩
    exact fun hmem => (List.mem_cons.mp hmem).elim (fun heq => hc heq.symm) htext
  · refine .inr ⟨hfinal, ?_⟩
    exact fun hmem => (List.mem_cons.mp hmem).elim (fun heq => hc heq.symm) hcs

namespace Gap

theorem mono {p q : Prop} (hpq : p → q) {cs : List Char} (h : Gap p cs) : Gap q cs := by
  induction h with
  | nil => exact .nil
  | blank hc _ ih => exact .blank hc ih
  | comment htext _ ih => exact .comment htext ih
  | unended hp htext => exact .unended (hpq hp) htext

/-- a newline ends the last comment -/
theorem newline {p q : Prop} {cs : List Char} (h : Gap p cs) : Gap q (cs ++ ['\n']) := by
  induction h with
  | nil => exact .blank rfl .nil
  | blank hc _ ih => exact .blank hc ih
  | comment htext _ ih =>
    rw [List.cons_append, List.append_assoc]
    exact .comment htext ih
  | unended _ htext => exact .comment htext .nil

end Gap

theorem skipBlanks_in_comment {text : List Char} (h : '\n' ∉ text) (offset : Nat) (cs : List Char) :
    skipBlanks true offset (text ++ cs) = skipBlanks true (offset + byteLength text) cs := by
  induction text generalizing offset with
  | nil => rfl
  | cons c text ih =>
    have hc : (c != '\n') = true := bne_iff_ne.mpr fun heq => h (heq ▸ List.mem_cons_self)
    have htext : '\n' ∉ text := fun hmem => h (List.mem_cons_of_mem c hmem)
    rw [List.cons_append, skipBlanks, if_pos rfl, hc, ih htext, byteLength_cons, Nat.add_assoc]

theorem skipBlanks_semicolon (offset : Nat) (cs : List Char) :
    skipBlanks false offset (';' :: cs) = skipBlanks true (offset + 1) cs := rfl

theorem skipBlanks_newline (offset : Nat) (cs : List Char) :
    skipBlanks true offset ('\n' :: cs) = skipBlanks false (offset + 1) cs := rfl

theorem skipBlanks_comment {text : List Char} (h : '\n' ∉ text) (offset : Nat) (cs : List Char) :
    skipBlanks false offset (';' :: (text ++ '\n' :: cs)) =
      skipBlanks false (offset + byteLength (';' :: (text ++ ['\n']))) cs := by
  have hlength : offset + 1 + byteLength text + 1 =
      offset + byteLength (';' :: (text ++ ['\n'])) := by
    rw [byteLength_cons, byteLength_append]
    show _ = offset + (1 + (byteLength text + 1))
    omega
  rw [skipBlanks_semicolon, skipBlanks_in_comment h, skipBlanks_newline, hlength]

/-- a gap in front of a text is skipped -/
theorem skipBlanks_gap {gap : List Char} (h : Gap False gap) (offset : Nat) (cs : List Char) :
    skipBlanks false offset (gap ++ cs) = skipBlanks false (offset + byteLength gap) cs := by
  induction h generalizing offset with
  | nil => rfl
  | @blank c gap hc _ ih =>
    rw [List.cons_append, skipBlanks, if_neg Bool.false_ne_true, if_pos hc, ih, byteLength_cons,
      Nat.add_assoc]
  | @comment text gap htext _ ih =>
    have hlist : ';' :: (text ++ '\n' :: gap) = ';' :: (text ++ ['\n']) ++ gap := by simp
    rw [List.cons_append, List.append_assoc, List.cons_append, skipBlanks_comment htext, ih, hlist,
      byteLength_append, Nat.add_assoc]
  | unended hfalse _ => exact hfalse.elim

theorem skipBlanks_last {gap : List Char} {final : Prop} (h : Gap final gap) (offset : Nat) :
    skipBlanks false offset gap = ⟨offset + byteLength gap, []⟩ := by
  induction h generalizing offset with
  | nil => rfl
  | @blank c gap hc _ ih =>
    rw [skipBlanks, if_neg Bool.false_ne_true, if_pos hc, ih, byteLength_cons, Nat.add_assoc]
  | @comment text gap htext _ ih =>
    have hlist : ';' :: (text ++ '\n' :: gap) = ';' :: (text ++ ['\n']) ++ gap := by simp
    rw [skipBlanks_comment htext, ih, hlist, byteLength_append, Nat.add_assoc]
  | @unended text _ htext =>
    have hskip := skipBlanks_in_comment htext (offset + 1) []
    rw [List.append_nil] at hskip
    rw [skipBlanks_semicolon, hskip, byteLength_cons, ← Nat.add_assoc]
    rfl

/-- what is skipped is a gap -/
theorem gap_of_skipBlanks (cs : List Char) : ∀ (comment : Bool) (offset : Nat), ∃ gap rest,
    cs = gap ++ rest ∧ skipBlanks comment offset cs = ⟨offset + byteLength gap, rest⟩ ∧
      if comment then GapInComment (rest = []) gap else Gap (rest = []) gap := by
  induction cs with
  | nil =>
    intro comment offset
    refine ⟨[], [], rfl, rfl, ?_⟩
    cases comment with
    | true => exact .inr ⟨rfl, List.not_mem_nil⟩
    | false => exact .nil
  | cons c cs ih =>
    intro comment offset
    -- a skipped character goes to the front of the gap behind it
    have skipped : ∀ comment' : Bool,
        skipBlanks comment offset (c :: cs) = skipBlanks comment' (offset + c.utf8Size) cs →
        (∀ (rest gap : List Char), (if comment' then GapInComment (rest = []) gap
            else Gap (rest = []) gap) →
          if comment then GapInComment (rest = []) (c :: gap) else Gap (rest = []) (c :: gap)) →
        ∃ gap rest, c :: cs = gap ++ rest ∧
          skipBlanks comment offset (c :: cs) = ⟨offset + byteLength gap, rest⟩ ∧
          if comment then GapInComment (rest = []) gap else Gap (rest = []) gap := by
      intro comment' hstep hfront
      obtain ⟨gap, rest, hcs, hskip, hgap⟩ := ih comment' (offset + c.utf8Size)
      refine ⟨c :: gap, rest, by rw [hcs]; rfl, ?_, hfront rest gap hgap⟩
      rw [hstep, hskip, byteLength_cons, Nat.add_assoc]
    cases comment with
    | true =>
      by_cases hc : c = '\n'
      · subst hc
        refine skipped false rfl fun rest gap hgap => ?_
        exact .inl ⟨[], gap, rfl, List.not_mem_nil, hgap⟩
      · have hne : (c != '\n') = true := bne_iff_ne.mpr hc
        have hstep : skipBlanks true offset (c :: cs) =
            skipBlanks true (offset + c.utf8Size) cs := by
          rw [skipBlanks, if_pos rfl, hne]
        exact skipped true hstep fun rest gap hgap => hgap.cons hc
    | false =>
      by_cases hb : isBlank c = true
      · have hstep : skipBlanks false offset (c :: cs) =
            skipBlanks false (offset + c.utf8Size) cs := by
          rw [skipBlanks, if_neg Bool.false_ne_true, if_pos hb]
        exact skipped false hstep fun rest gap hgap => .blank hb hgap
      · by_cases hs : c = ';'
        · subst hs
          exact skipped true rfl fun rest gap hgap => hgap.gap
        · refine ⟨[], c :: cs, rfl, ?_, .nil⟩
          rw [skipBlanks, if_neg Bool.false_ne_true, if_neg hb, if_neg hs]
          rfl

/-! ## strings -/

/-- a string from behind its opening quote to its closing one, and the characters it stands for -/
inductive StringText : List Char → List Char → Prop
  | close : StringText ['"'] []
  | escape {e d : Char} {cs value : List Char} : unescape? e = some d → StringText cs value →
      StringText ('\\' :: e :: cs) (d :: value)
  | plain {c : Char} {cs value : List Char} : c ≠ '"' → c ≠ '\\' → StringText cs value →
      StringText (c :: cs) (c :: value)

theorem stringBody_of_stringText {text value : List Char} (h : StringText text value) (start : Nat)
    (rest : List Char) : ∀ (offset : Nat) (read : List Char),
      stringBody start offset read (text ++ rest) =
        .ok (String.ofList (read.reverse ++ value), ⟨offset + byteLength text, rest⟩) := by
  induction h with
  | close =>
    intro offset read
    show stringBody start offset read ('"' :: rest) = _
    unfold stringBody
    rw [if_pos rfl, List.append_nil]
    rfl
  | @escape e d cs value he _ ih =>
    intro offset read
    have hlength : offset + 1 + e.utf8Size + byteLength cs =
        offset + byteLength ('\\' :: e :: cs) := by
      show _ = offset + (1 + (e.utf8Size + byteLength cs))
      omega
    show stringBody start offset read ('\\' :: e :: (cs ++ rest)) = _
    rw [stringBody.eq_def]
    simp only [he]
    rw [if_neg (by decide), if_pos trivial, ih, hlength, List.reverse_cons, List.append_assoc]
    rfl
  | @plain c cs value hquote hslash _ ih =>
    intro offset read
    show stringBody start offset read (c :: (cs ++ rest)) = _
    rw [stringBody.eq_def]
    simp only [if_neg hquote, if_neg hslash]
    rw [ih, List.reverse_cons, List.append_assoc, byteLength_cons, Nat.add_assoc]
    rfl

theorem stringText_of_stringBody {start offset : Nat} {read cs : List Char} {s : String}
    {q : Cursor} (h : stringBody start offset read cs = .ok (s, q)) :
    ∃ text value, cs = text ++ q.rest ∧ StringText text value ∧
      s = String.ofList (read.reverse ++ value) ∧ q.offset = offset + byteLength text := by
  fun_induction stringBody start offset read cs with
  | case1 => cases h
  | case2 =>
    cases h
    exact ⟨['"'], [], rfl, .close, by rw [List.append_nil], rfl⟩
  | case3 => cases h
  | case4 offset read e cs d he _ ih =>
    obtain ⟨text, value, hcs, htext, hs, hq⟩ := ih h
    refine ⟨'\\' :: e :: text, d :: value, by rw [hcs]; rfl, .escape he htext, ?_, ?_⟩
    · rw [hs, List.reverse_cons, List.append_assoc]
      rfl
    · rw [hq]
      show _ = offset + (1 + (e.utf8Size + byteLength text))
      omega
  | case5 => cases h
  | case6 offset read c cs hquote hslash ih =>
    obtain ⟨text, value, hcs, htext, hs, hq⟩ := ih h
    refine ⟨c :: text, c :: value, by rw [hcs]; rfl, .plain hquote hslash htext, ?_, ?_⟩
    · rw [hs, List.reverse_cons, List.append_assoc]
      rfl
    · rw [hq, byteLength_cons, Nat.add_assoc]

/-! ## atoms -/

/-- the token is an atom other than a string -/
def TokenKind.isWord : TokenKind → Bool
  | .int _ => true
  | .float _ => true
  | .keyword _ => true
  | .symbol _ => true
  | _ => false

theorem isWord_of_classify {text : List Char} {span : Span} {k : TokenKind}
    (h : classify text span = .ok k) : k.isWord = true := by
  unfold classify at h
  split at h
  · split at h
    · rename_i kind hk
      cases h
      rcases readNumber?_cases hk with ⟨n, rfl⟩ | ⟨x, rfl⟩
      · rfl
      · rfl
    · cases h
  · split at h
    · split at h
      · cases h
        rfl
      · cases h
        rfl
    · cases h
      rfl

/-- what an atom is does not depend on its place -/
theorem classify_of_classify {text : List Char} {span : Span} {k : TokenKind}
    (h : classify text span = .ok k) (span' : Span) : classify text span' = .ok k := by
  unfold classify at h ⊢
  by_cases hn : startsNumber text = true
  · rw [if_pos hn] at h ⊢
    cases hk : readNumber? text with
    | some kind =>
      rw [hk] at h
      exact h
    | none =>
      rw [hk] at h
      cases h
  · rw [if_neg hn] at h ⊢
    exact h

/-- an atom is cut out with all the atom characters at hand -/
theorem atomText_of_atomToken {offset : Nat} {c : Char} {cs : List Char} {t : Token} {q : Cursor}
    (hc : isAtomChar c = true) (hc' : c ≠ '~') (h : atomToken offset (c :: cs) = .ok (t, q)) :
    ∃ text, c :: cs = text ++ q.rest ∧ AtomText text t.kind ∧ AtomEnded q.rest ∧
      t.span = .ofRange offset (offset + byteLength text) ∧ q.offset = offset + byteLength text := by
  unfold atomToken at h
  simp only at h
  split at h
  · rename_i kind hk
    cases h
    have htext : (c :: cs).takeWhile isAtomChar = c :: cs.takeWhile isAtomChar :=
      List.takeWhile_cons_of_pos hc
    refine ⟨_, List.takeWhile_append_dropWhile.symm, ⟨?_, ?_, ?_, ?_⟩, ?_, rfl, rfl⟩
    · rw [htext]
      exact List.cons_ne_nil _ _
    · exact List.all_eq_true.mp List.all_takeWhile
    · rw [htext]
      exact fun heq => hc' (Option.some.inj heq)
    · exact classify_of_classify hk
    · intro d hd
      have hstop : isAtomChar d = false := by
        have hhead := List.head?_dropWhile_not isAtomChar (c :: cs)
        rw [Option.mem_def.mp hd] at hhead
        exact hhead
      simpa [isAtomChar] using hstop
  · cases h

/-! ## tokens -/

/-- how a token is written -/
inductive Spells : List Char → TokenKind → Prop
  | opening (shape : Delimiter) : Spells [shape.opening] (.opening shape)
  | closing (shape : Delimiter) : Spells [shape.closing] (.closing shape)
  | sigil (mark : Sigil) : Spells mark.text.toList (.sigil mark)
  | string {text value : List Char} : StringText text value →
      Spells ('"' :: text) (.str (String.ofList value))
  | atom {text : List Char} {k : TokenKind} : AtomText text k → Spells text k

/-- the text behind a token does not make it longer -/
structure EndsBefore (k : TokenKind) (rest : List Char) : Prop where
  word : k.isWord = true → AtomEnded rest
  unquote : k = .sigil .unquote → rest.head? ≠ some '@'

namespace EndsBefore

variable {k : TokenKind}

theorem of_head? {cs ds : List Char} (h : EndsBefore k cs) (heq : ds.head? = cs.head?) :
    EndsBefore k ds := by
  refine ⟨fun hk => ?_, fun hk => ?_⟩
  · rw [AtomEnded, heq]
    exact h.word hk
  · rw [heq]
    exact h.unquote hk

theorem nil : EndsBefore k [] := ⟨fun _ => atomEnded_nil, fun _ => nofun⟩

theorem newline (cs : List Char) : EndsBefore k ('\n' :: cs) :=
  ⟨fun _ => atomEnded_cons rfl cs, fun _ heq => absurd (Option.some.inj heq) (by decide)⟩

theorem of_append {cs ds : List Char} (h : EndsBefore k (cs ++ ds)) : EndsBefore k cs := by
  cases cs with
  | nil => exact nil
  | cons c cs => exact h.of_head? rfl

theorem append_newline {cs : List Char} (h : EndsBefore k cs) (ds : List Char) :
    EndsBefore k (cs ++ '\n' :: ds) := by
  cases cs with
  | nil => exact newline ds
  | cons c cs => exact h.of_head? rfl

theorem of_not_word (hword : k.isWord = false) (hk : k ≠ .sigil .unquote) (cs : List Char) :
    EndsBefore k cs := by
  refine ⟨fun h => ?_, fun h => absurd h hk⟩
  rw [hword] at h
  cases h

end EndsBefore

theorem AtomText.isWord {cs : List Char} {k : TokenKind} (h : AtomText cs k) : k.isWord = true :=
  isWord_of_classify (h.classified default)

theorem Spells.ne_nil {text : List Char} {k : TokenKind} (h : Spells text k) : text ≠ [] := by
  cases h with
  | opening shape => exact List.cons_ne_nil _ _
  | closing shape => exact List.cons_ne_nil _ _
  | sigil mark => cases mark <;> decide
  | string _ => exact List.cons_ne_nil _ _
  | atom h => exact h.ne_nil

/-- the token and the cursor behind it, for a token that is written as `text` -/
def tokenOf (offset : Nat) (text : List Char) (k : TokenKind) (rest : List Char) : Token × Cursor :=
  (⟨k, .ofRange offset (offset + byteLength text)⟩, ⟨offset + byteLength text, rest⟩)

/-- a token that is written somewhere is found there -/
theorem nextToken_of_spells {text : List Char} {k : TokenKind} (h : Spells text k)
    {rest : List Char} (hrest : EndsBefore k rest) (offset : Nat) :
    nextToken ⟨offset, text ++ rest⟩ = some (.ok (tokenOf offset text k rest)) := by
  cases h with
  | opening shape => cases shape <;> rfl
  | closing shape => cases shape <;> rfl
  | sigil mark =>
    cases mark with
    | splice => rfl
    | unquote =>
      have hstart : nextToken ⟨offset, '~' :: rest⟩ = some (tokenAt offset '~' rest) :=
        nextToken_start rfl (by decide) offset rest
      have htoken : tokenAt offset '~' rest = .ok (markToken offset (.sigil .unquote) 1 rest) := by
        show (if rest.head? = some '@' then _ else _) = _
        rw [if_neg (hrest.unquote rfl)]
      show nextToken ⟨offset, '~' :: rest⟩ = _
      rw [hstart, htoken]
      rfl
  | @string text value htext =>
    have hbody := stringBody_of_stringText htext offset rest (offset + 1) []
    have hlength : offset + 1 + byteLength text = offset + byteLength ('"' :: text) := by
      show _ = offset + (1 + byteLength text)
      omega
    show nextToken ⟨offset, '"' :: (text ++ rest)⟩ = _
    rw [nextToken_start rfl (by decide)]
    show some (stringToken offset (text ++ rest)) = _
    rw [stringToken, hbody, hlength]
    rfl
  | atom hk =>
    obtain ⟨c, ds, rfl⟩ := List.exists_cons_of_ne_nil hk.ne_nil
    have hc : isAtomChar c = true := hk.atomChars c List.mem_cons_self
    have hsigil : c ≠ '~' := fun heq => hk.not_sigil (congrArg some heq)
    have hended : AtomEnded rest := hrest.word hk.isWord
    rw [List.cons_append, nextToken_start (isBlank_of_isAtomChar hc) (ne_of_isAtomChar hc rfl),
      tokenAt_atom hc hsigil, ← List.cons_append, atomToken, takeWhile_atom hk.atomChars hended,
      dropWhile_atom hk.atomChars hended, hk.classified]
    rfl

/-- a bracket is a token by itself -/
theorem spells_of_bracket {offset : Nat} {c : Char} {cs : List Char} {k : TokenKind} {t : Token}
    {q : Cursor} (hspells : Spells [c] k) (hc : c.utf8Size = 1) (hword : k.isWord = false)
    (hk : k ≠ .sigil .unquote)
    (h : (.ok (markToken offset k 1 cs) : Except LexError (Token × Cursor)) = .ok (t, q)) :
    ∃ text k, c :: cs = text ++ q.rest ∧ Spells text k ∧ EndsBefore k q.rest ∧
      (t, q) = tokenOf offset text k q.rest := by
  cases h
  have hlength : byteLength [c] = 1 := by rw [byteLength_cons, hc, byteLength_nil]
  refine ⟨[c], k, rfl, hspells, .of_not_word hword hk _, ?_⟩
  rw [tokenOf, hlength]

theorem spells_of_tokenAt {offset : Nat} {c : Char} {cs : List Char} {t : Token} {q : Cursor}
    (hb : isBlank c = false) (hs : c ≠ ';') (h : tokenAt offset c cs = .ok (t, q)) :
    ∃ text k, c :: cs = text ++ q.rest ∧ Spells text k ∧ EndsBefore k q.rest ∧
      (t, q) = tokenOf offset text k q.rest := by
  unfold tokenAt at h
  split at h
  · rename_i hc
    subst hc
    exact spells_of_bracket (.opening .round) rfl rfl nofun h
  rename_i h₁
  split at h
  · rename_i hc
    subst hc
    exact spells_of_bracket (.closing .round) rfl rfl nofun h
  rename_i h₂
  split at h
  · rename_i hc
    subst hc
    exact spells_of_bracket (.opening .square) rfl rfl nofun h
  rename_i h₃
  split at h
  · rename_i hc
    subst hc
    exact spells_of_bracket (.closing .square) rfl rfl nofun h
  rename_i h₄
  split at h
  · rename_i hc
    split at h
    · rename_i hat
      obtain ⟨ds, rfl⟩ : ∃ ds, cs = '@' :: ds := List.head?_eq_some_iff.mp hat
      cases h
      have hends : EndsBefore (.sigil .splice) ds := .of_not_word rfl (by nofun) ds
      exact ⟨['~', '@'], .sigil .splice, by rw [hc]; rfl, .sigil .splice, hends, rfl⟩
    · rename_i hat
      cases h
      exact ⟨['~'], .sigil .unquote, by rw [hc]; rfl, .sigil .unquote, ⟨nofun, fun _ => hat⟩, rfl⟩
  rename_i h₅
  split at h
  · rename_i hc
    unfold stringToken at h
    split at h
    · rename_i value after hbody
      cases h
      obtain ⟨text, value, hcs, htext, hvalue, hoffset⟩ := stringText_of_stringBody hbody
      have hlength : q.offset = offset + byteLength ('"' :: text) := by
        rw [hoffset]
        show _ = offset + (1 + byteLength text)
        omega
      have hends : EndsBefore (.str (String.ofList value)) q.rest :=
        .of_not_word rfl (by nofun) q.rest
      refine ⟨'"' :: text, _, by rw [hc, hcs]; rfl, .string htext, hends, ?_⟩
      rw [hvalue, tokenOf, ← hlength]
      rfl
    · cases h
  · rename_i h₆
    have hc : isAtomChar c = true := isAtomChar_of_start hb hs h₁ h₂ h₃ h₄ h₆
    obtain ⟨text, hcs, htext, hended, hspan, hoffset⟩ := atomText_of_atomToken hc h₅ h
    refine ⟨text, t.kind, hcs, .atom htext, ⟨fun _ => hended, ?_⟩, ?_⟩
    · intro hk
      have hword := htext.isWord
      rw [hk] at hword
      cases hword
    · rw [tokenOf, ← hspan, ← hoffset]

/-- a token that is found is written behind a gap -/
theorem spells_of_nextToken {p q : Cursor} {t : Token} (h : nextToken p = some (.ok (t, q))) :
    ∃ gap text k, p.rest = gap ++ (text ++ q.rest) ∧ Gap False gap ∧ Spells text k ∧
      EndsBefore k q.rest ∧ (t, q) = tokenOf (p.offset + byteLength gap) text k q.rest := by
  obtain ⟨gap, rest, hrest, hskip, hgap⟩ := gap_of_skipBlanks p.rest false p.offset
  unfold nextToken at h
  rw [hskip] at h
  cases rest with
  | nil => cases h
  | cons c cs =>
    obtain ⟨hb, hs⟩ := skipBlanks_stop hskip
    obtain ⟨text, k, hcs, hspells, hends, htq⟩ := spells_of_tokenAt hb hs (Option.some.inj h)
    refine ⟨gap, text, k, by rw [hrest, hcs], ?_, hspells, hends, htq⟩
    exact Gap.mono (List.cons_ne_nil c cs) hgap

theorem gap_of_nextToken {p : Cursor} (h : nextToken p = none) : Gap True p.rest := by
  obtain ⟨gap, rest, hrest, hskip, hgap⟩ := gap_of_skipBlanks p.rest false p.offset
  unfold nextToken at h
  rw [hskip] at h
  cases rest with
  | nil =>
    rw [hrest, List.append_nil]
    exact Gap.mono (fun _ => trivial) hgap
  | cons c cs => cases h

theorem nextToken_gap {gap : List Char} (h : Gap False gap) (offset : Nat) (cs : List Char) :
    nextToken ⟨offset, gap ++ cs⟩ = nextToken ⟨offset + byteLength gap, cs⟩ := by
  rw [nextToken, nextToken, skipBlanks_gap h]

theorem nextToken_last {gap : List Char} (h : Gap True gap) (offset : Nat) :
    nextToken ⟨offset, gap⟩ = none := by
  rw [nextToken, skipBlanks_last h]

/-! ## texts -/

/-- a text from an offset on, and the tokens that it holds -/
inductive Tiles : Nat → List Char → List Token → Prop
  | last {offset : Nat} {gap : List Char} : Gap True gap → Tiles offset gap []
  | token {offset : Nat} {gap text rest : List Char} {k : TokenKind} {ts : List Token} :
      Gap False gap → Spells text k → EndsBefore k rest →
      Tiles (offset + byteLength gap + byteLength text) rest ts →
      Tiles offset (gap ++ (text ++ rest))
        ((tokenOf (offset + byteLength gap) text k rest).1 :: ts)

theorem tiles_of_lexFrom {ts : List Token} : ∀ {p : Cursor}, lexFrom p = .ok ts →
    Tiles p.offset p.rest ts := by
  induction ts with
  | nil =>
    intro p h
    rcases lexFrom_cases h with ⟨hnone, _⟩ | ⟨t, q, us, _, _, heq⟩
    · exact .last (gap_of_nextToken hnone)
    · cases heq
  | cons t ts ih =>
    intro p h
    rcases lexFrom_cases h with ⟨_, heq⟩ | ⟨t, q, us, hnext, hus, heq⟩
    · cases heq
    · cases heq
      obtain ⟨gap, text, k, hrest, hgap, hspells, hends, htq⟩ := spells_of_nextToken hnext
      obtain ⟨rfl, hq⟩ := Prod.mk.inj htq
      have htail := ih hus
      rw [hq] at htail
      rw [hrest]
      exact .token hgap hspells hends htail

theorem lexFrom_of_tiles {offset : Nat} {cs : List Char} {ts : List Token}
    (h : Tiles offset cs ts) : lexFrom ⟨offset, cs⟩ = .ok ts := by
  induction h with
  | last hgap => exact lexFrom_of_none (nextToken_last hgap _)
  | token hgap hspells hends _ ih =>
    refine lexFrom_of_token ?_ ih
    rw [nextToken_gap hgap, nextToken_of_spells hspells hends]
    rfl

/-- the lexer finds exactly the tokens that the grammar puts into a text -/
theorem lexFrom_ok_iff {offset : Nat} {cs : List Char} {ts : List Token} :
    lexFrom ⟨offset, cs⟩ = .ok ts ↔ Tiles offset cs ts :=
  ⟨tiles_of_lexFrom, lexFrom_of_tiles⟩

end TraceFront
