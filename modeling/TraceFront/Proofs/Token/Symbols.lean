import TraceFront.Token.Lexer

/-!
# The symbols and keywords of a source

* `forall_mem_lex`   what holds of every single token holds of all tokens of a source;
* `tokenAt_cases`    what a single token can be;
* `SymbolText`       how the text of a symbol looks;
* `lex_symbols`      the symbols of a source look like that;
* `lex_keywords`     and its keywords like `KeywordText`.
-/

namespace TraceFront

open Number Text

/-! ## from one token to all -/

/-- a successful run stops at the end, or takes one token and goes on -/
theorem lexFrom_cases {p : Cursor} {ts : List Token} (h : lexFrom p = .ok ts) :
    (nextToken p = none ∧ ts = []) ∨
      ∃ t q us, nextToken p = some (.ok (t, q)) ∧ lexFrom q = .ok us ∧ ts = t :: us := by
  rw [lexFrom] at h
  split at h
  · rename_i hn
    cases h
    exact .inl ⟨hn, rfl⟩
  · cases h
  · rename_i t q hn
    split at h
    · rename_i us hus
      cases h
      exact .inr ⟨t, q, us, hn, hus, rfl⟩
    · cases h

/-- a token starts at a character that is not skipped -/
theorem nextToken_cases {p q : Cursor} {t : Token} (h : nextToken p = some (.ok (t, q))) :
    ∃ offset c cs, isBlank c = false ∧ c ≠ ';' ∧ tokenAt offset c cs = .ok (t, q) := by
  unfold nextToken at h
  split at h
  · cases h
  · rename_i offset c cs hskip
    obtain ⟨hb, hs⟩ := skipBlanks_stop hskip
    exact ⟨offset, c, cs, hb, hs, Option.some.inj h⟩

/-- what holds of each token by itself holds of all tokens of a source -/
theorem forall_mem_lex {P : Token → Prop}
    (step : ∀ {offset : Nat} {c : Char} {cs : List Char} {t : Token} {q : Cursor},
      isBlank c = false → c ≠ ';' → tokenAt offset c cs = .ok (t, q) → P t)
    {source : String} {ts : List Token} (h : lex source = .ok ts) : ∀ t ∈ ts, P t := by
  have run : ∀ (n : Nat) (p : Cursor), p.rest.length = n → ∀ ts, lexFrom p = .ok ts →
      ∀ t ∈ ts, P t := by
    intro n
    induction n using Nat.strongRecOn with
    | ind n ih =>
      intro p hp ts hts
      rcases lexFrom_cases hts with ⟨_, rfl⟩ | ⟨t, q, us, hn, hus, rfl⟩
      · exact List.forall_mem_nil _
      · obtain ⟨offset, c, cs, hb, hs, ht⟩ := nextToken_cases hn
        have hlt := nextToken_shorter hn
        rw [hp] at hlt
        exact List.forall_mem_cons.mpr ⟨step hb hs ht, ih _ hlt q rfl us hus⟩
  exact run _ _ rfl _ h

/-! ## symbols -/

/-- how the text of a symbol looks -/
structure SymbolText (cs : List Char) : Prop where
  ne_nil : cs ≠ []
  atomChars : ∀ c ∈ cs, isAtomChar c = true
  not_number : startsNumber cs = false
  not_keyword : ∀ d ds, cs ≠ ':' :: d :: ds
  not_sigil : cs.head? ≠ some '~'

theorem startsNumber_digit {c : Char} (h : c.isDigit = true) (cs : List Char) :
    startsNumber (c :: cs) = true := by
  cases cs with
  | nil => exact h
  | cons d ds => simp [startsNumber, h]

/-- a number is an integer or a fraction -/
theorem readNumber?_cases {text : List Char} {kind : TokenKind} (h : readNumber? text = some kind) :
    (∃ n, kind = .int n) ∨ ∃ x, kind = .float x := by
  unfold readNumber? at h
  split at h
  · cases h
    exact .inl ⟨_, rfl⟩
  · split at h
    · obtain ⟨x, _, rfl⟩ := Option.map_eq_some_iff.mp h
      exact .inr ⟨_, rfl⟩
    · cases h

theorem readNumber?_ne_symbol {text : List Char} {s : String} :
    readNumber? text ≠ some (.symbol s) := by
  intro h
  rcases readNumber?_cases h with ⟨n, hn⟩ | ⟨x, hx⟩
  · cases hn
  · cases hx

theorem readNumber?_ne_keyword {text : List Char} {k : String} :
    readNumber? text ≠ some (.keyword k) := by
  intro h
  rcases readNumber?_cases h with ⟨n, hn⟩ | ⟨x, hx⟩
  · cases hn
  · cases hx

/-- an atom is a symbol only if it is meant neither as a number nor as a keyword -/
theorem classify_symbol {text : List Char} {span : Span} {s : String}
    (h : classify text span = .ok (.symbol s)) :
    s = String.ofList text ∧ startsNumber text = false ∧ ∀ d ds, text ≠ ':' :: d :: ds := by
  unfold classify at h
  split at h
  · split at h
    · rename_i kind hk
      cases h
      exact absurd hk readNumber?_ne_symbol
    · cases h
  · rename_i hn
    rw [Bool.not_eq_true] at hn
    split at h
    · rename_i c d cs
      split at h
      · cases h
      · rename_i hc
        cases h
        refine ⟨rfl, hn, ?_⟩
        intro d' ds' heq
        exact hc (List.cons.inj heq).1
    · rename_i hshort
      cases h
      exact ⟨rfl, hn, fun d ds heq => hshort ':' d ds heq⟩

theorem isAtomChar_of_start {c : Char} (hb : isBlank c = false) (hs : c ≠ ';') (h₁ : c ≠ '(')
    (h₂ : c ≠ ')') (h₃ : c ≠ '[') (h₄ : c ≠ ']') (h₅ : c ≠ '"') : isAtomChar c = true := by
  simp [isAtomChar, endsAtom, hb, hs, h₁, h₂, h₃, h₄, h₅]

/-- the text of an atom is a nonempty run of characters that end no atom -/
theorem atomToken_cases {offset : Nat} {c : Char} {cs : List Char} {t : Token} {q : Cursor}
    (hc : isAtomChar c = true) (hc' : c ≠ '~') (h : atomToken offset (c :: cs) = .ok (t, q)) :
    ∃ text span, text ≠ [] ∧ (∀ d ∈ text, isAtomChar d = true) ∧ text.head? ≠ some '~' ∧
      classify text span = .ok t.kind := by
  unfold atomToken at h
  simp only at h
  split at h
  · rename_i kind hk
    cases h
    have htext : (c :: cs).takeWhile isAtomChar = c :: cs.takeWhile isAtomChar :=
      List.takeWhile_cons_of_pos hc
    refine ⟨_, _, ?_, List.all_eq_true.mp List.all_takeWhile, ?_, hk⟩
    · rw [htext]
      exact List.cons_ne_nil _ _
    · rw [htext]
      intro hh
      exact hc' (Option.some.inj hh)
  · cases h

/-- a token is a bracket, a sigil, a string or an atom -/
theorem tokenAt_cases {offset : Nat} {c : Char} {cs : List Char} {t : Token} {q : Cursor}
    (hb : isBlank c = false) (hs : c ≠ ';') (h : tokenAt offset c cs = .ok (t, q)) :
    (∃ shape, t.kind = .opening shape) ∨ (∃ shape, t.kind = .closing shape) ∨
    (∃ mark, t.kind = .sigil mark) ∨ (∃ s, t.kind = .str s) ∨
    ∃ text span, text ≠ [] ∧ (∀ d ∈ text, isAtomChar d = true) ∧ text.head? ≠ some '~' ∧
      classify text span = .ok t.kind := by
  unfold tokenAt at h
  split at h
  · cases h
    exact .inl ⟨_, rfl⟩
  rename_i h₁
  split at h
  · cases h
    exact .inr (.inl ⟨_, rfl⟩)
  rename_i h₂
  split at h
  · cases h
    exact .inl ⟨_, rfl⟩
  rename_i h₃
  split at h
  · cases h
    exact .inr (.inl ⟨_, rfl⟩)
  rename_i h₄
  split at h
  · split at h
    all_goals
      cases h
      exact .inr (.inr (.inl ⟨_, rfl⟩))
  rename_i h₅
  split at h
  · unfold stringToken at h
    split at h
    · cases h
      exact .inr (.inr (.inr (.inl ⟨_, rfl⟩)))
    · cases h
  rename_i h₆
  exact .inr (.inr (.inr (.inr
    (atomToken_cases (isAtomChar_of_start hb hs h₁ h₂ h₃ h₄ h₆) h₅ h))))

theorem tokenAt_symbol {offset : Nat} {c : Char} {cs : List Char} {t : Token} {q : Cursor}
    (hb : isBlank c = false) (hs : c ≠ ';') (h : tokenAt offset c cs = .ok (t, q)) (s : String)
    (ht : t.kind = .symbol s) : SymbolText s.toList := by
  rcases tokenAt_cases hb hs h with ⟨_, hk⟩ | ⟨_, hk⟩ | ⟨_, hk⟩ | ⟨_, hk⟩ |
    ⟨text, span, hne, hatom, hsigil, hclass⟩
  iterate 4
    rw [ht] at hk
    cases hk
  rw [ht] at hclass
  obtain ⟨rfl, hnumber, hkey⟩ := classify_symbol hclass
  rw [String.toList_ofList]
  exact ⟨hne, hatom, hnumber, hkey, hsigil⟩

/-- the symbols of a source look like symbols -/
theorem lex_symbols {source : String} {ts : List Token} (h : lex source = .ok ts) :
    ∀ t ∈ ts, ∀ s, t.kind = .symbol s → SymbolText s.toList :=
  forall_mem_lex (fun hb hs ht s hk => tokenAt_symbol hb hs ht s hk) h

/-! ## keywords -/

/-- how the text of a keyword looks behind its colon -/
structure KeywordText (cs : List Char) : Prop where
  ne_nil : cs ≠ []
  atomChars : ∀ c ∈ cs, isAtomChar c = true

theorem classify_keyword {text : List Char} {span : Span} {k : String}
    (h : classify text span = .ok (.keyword k)) : k.toList ≠ [] ∧ text = ':' :: k.toList := by
  unfold classify at h
  split at h
  · split at h
    · rename_i kind hk
      cases h
      exact absurd hk readNumber?_ne_keyword
    · cases h
  · split at h
    · rename_i c d cs
      split at h
      · rename_i hc
        cases h
        rw [hc, String.toList_ofList]
        exact ⟨List.cons_ne_nil _ _, rfl⟩
      · cases h
    · cases h

theorem tokenAt_keyword {offset : Nat} {c : Char} {cs : List Char} {t : Token} {q : Cursor}
    (hb : isBlank c = false) (hs : c ≠ ';') (h : tokenAt offset c cs = .ok (t, q)) (k : String)
    (ht : t.kind = .keyword k) : KeywordText k.toList := by
  rcases tokenAt_cases hb hs h with ⟨_, hk⟩ | ⟨_, hk⟩ | ⟨_, hk⟩ | ⟨_, hk⟩ |
    ⟨text, span, hne, hatom, hsigil, hclass⟩
  iterate 4
    rw [ht] at hk
    cases hk
  rw [ht] at hclass
  obtain ⟨hk, rfl⟩ := classify_keyword hclass
  exact ⟨hk, (List.forall_mem_cons.mp hatom).2⟩

theorem lex_keywords {source : String} {ts : List Token} (h : lex source = .ok ts) :
    ∀ t ∈ ts, ∀ k, t.kind = .keyword k → KeywordText k.toList :=
  forall_mem_lex (fun hb hs ht k hk => tokenAt_keyword hb hs ht k hk) h

end TraceFront
