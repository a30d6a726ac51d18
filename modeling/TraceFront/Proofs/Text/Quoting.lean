import TraceFront.Proofs.Token.Printing

/-!
# Quoted texts

A quoted text stands in one line and tells the text between its quotes.  The escapes of two characters
do not begin one another: one with a letter behind its backslash has two characters, one with a code
ends at its closing brace, and a character that stands for itself is no backslash.

* `append_sep_inj`           a text is cut at its first separator in one way only;
* `toDigits_injective`       the digits of a number in base sixteen tell the number;
* `EscapeOf`                 the three kinds of escapes;
* `EscapeOf.append_inj`      the escape of a character tells the character and where it ends;
* `quoted_injective`         a quoted text tells the text;
* `newline_not_mem_quoted`   and no line ends in it.
-/

namespace TraceFront

namespace Text

/-- where a separator is first met tells what is before it and what is behind it -/
theorem append_sep_inj {sep : Char} {cs ds x y : List Char} (hc : sep ∉ cs) (hd : sep ∉ ds)
    (h : cs ++ sep :: x = ds ++ sep :: y) : cs = ds ∧ x = y := by
  induction cs generalizing ds with
  | nil =>
    cases ds with
    | nil => exact ⟨rfl, (List.cons.inj h).2⟩
    | cons d ds => exact absurd ((List.cons.inj h).1 ▸ List.mem_cons_self) hd
  | cons c cs ih =>
    cases ds with
    | nil => exact absurd ((List.cons.inj h).1 ▸ List.mem_cons_self) hc
    | cons d ds =>
      obtain ⟨rfl, hrest⟩ := List.cons.inj h
      obtain ⟨rfl, hxy⟩ := ih (fun hmem => hc (List.mem_cons_of_mem _ hmem))
        (fun hmem => hd (List.mem_cons_of_mem _ hmem)) hrest
      exact ⟨rfl, hxy⟩

/-! ## codes -/

theorem digitChar_injective {i j : Nat} (hi : i < 16) (hj : j < 16)
    (h : Nat.digitChar i = Nat.digitChar j) : i = j := by
  have hall : ∀ i < 16, ∀ j < 16, Nat.digitChar i = Nat.digitChar j → i = j := by decide
  exact hall i hi j hj h

/-- the digits of a number in base sixteen are its last one behind those of the rest, if any -/
theorem toDigits_eq (n : Nat) :
    Nat.toDigits 16 n =
      (if n < 16 then [] else Nat.toDigits 16 (n / 16)) ++ [Nat.digitChar (n % 16)] := by
  by_cases h : n < 16
  · rw [if_pos h, Nat.toDigits_of_lt_base h, Nat.mod_eq_of_lt h]
    rfl
  · rw [if_neg h, Nat.toDigits_of_base_le (by decide) (Nat.le_of_not_lt h)]

theorem toDigits_injective {m n : Nat} (h : Nat.toDigits 16 m = Nat.toDigits 16 n) : m = n := by
  induction m using Nat.strongRecOn generalizing n with
  | ind m ih =>
    rw [toDigits_eq m, toDigits_eq n] at h
    obtain ⟨hinit, hlast⟩ := List.append_inj' h rfl
    have hmod : m % 16 = n % 16 :=
      digitChar_injective (Nat.mod_lt _ (by decide)) (Nat.mod_lt _ (by decide))
        (List.singleton_inj.mp hlast)
    -- the digits in front of the last one are there on both sides or on neither
    by_cases hm : m < 16
    · by_cases hn : n < 16
      · omega
      · rw [if_pos hm, if_neg hn] at hinit
        exact absurd hinit.symm Nat.toDigits_ne_nil
    · by_cases hn : n < 16
      · rw [if_neg hm, if_pos hn] at hinit
        exact absurd hinit Nat.toDigits_ne_nil
      · rw [if_neg hm, if_neg hn] at hinit
        have hdiv := ih (m / 16) (by omega) hinit
        omega

theorem ne_of_mem_toDigits {n : Nat} {c : Char} (h : c ∈ Nat.toDigits 16 n) :
    c ≠ '\x7d' ∧ c ≠ '\n' := by
  induction n using Nat.strongRecOn with
  | ind n ih =>
    have hdigit : ∀ i < 16, Nat.digitChar i ≠ '\x7d' ∧ Nat.digitChar i ≠ '\n' := by decide
    rw [toDigits_eq, List.mem_append, List.mem_singleton] at h
    rcases h with h | rfl
    · split at h
      · cases h
      · exact ih (n / 16) (by omega) h
    · exact hdigit _ (Nat.mod_lt _ (by decide))

theorem hexCode_injective {c d : Char} (h : hexCode c = hexCode d) : c = d :=
  Char.toNat_inj.mp (toDigits_injective h)

/-! ## escapes -/

/-- the text is the escape of the character: a letter behind a backslash, a code, or itself -/
inductive EscapeOf (c : Char) : List Char → Prop
  | letter {e : Char} (h : shortEscape? c = some e) : EscapeOf c ['\\', e]
  | code : EscapeOf c ('\\' :: 'u' :: '\x7b' :: (hexCode c ++ ['\x7d']))
  | itself (h : shortEscape? c = none) : EscapeOf c [c]

theorem escapeOf_escape (c : Char) : EscapeOf c (escape c) := by
  unfold escape
  split
  · rename_i e he
    exact .letter he
  · rename_i he
    split
    · exact .code
    · exact .itself he

theorem shortEscape?_injective {c d e : Char} (hc : shortEscape? c = some e)
    (hd : shortEscape? d = some e) : c = d :=
  Option.some.inj ((unescape?_of_shortEscape? hc).symm.trans (unescape?_of_shortEscape? hd))

/-- no letter behind a backslash is the one in front of a code, or ends a line -/
theorem ne_of_shortEscape? {c e : Char} (h : shortEscape? c = some e) : e ≠ 'u' ∧ e ≠ '\n' := by
  have hread := unescape?_of_shortEscape? h
  constructor
  · rintro rfl
    cases hread
  · rintro rfl
    cases hread

theorem hexCode_append_inj {c d : Char} {x y : List Char}
    (h : hexCode c ++ '\x7d' :: x = hexCode d ++ '\x7d' :: y) : c = d ∧ x = y := by
  have hc : '\x7d' ∉ hexCode c := fun hmem => (ne_of_mem_toDigits hmem).1 rfl
  have hd : '\x7d' ∉ hexCode d := fun hmem => (ne_of_mem_toDigits hmem).1 rfl
  obtain ⟨hcode, hrest⟩ := append_sep_inj hc hd h
  exact ⟨hexCode_injective hcode, hrest⟩

/-- the escape of a character tells the character and where it ends -/
theorem EscapeOf.append_inj {c d : Char} {cs ds x y : List Char} (hc : EscapeOf c cs)
    (hd : EscapeOf d ds) (h : cs ++ x = ds ++ y) : c = d ∧ x = y := by
  cases hc with
  | letter he =>
    cases hd with
    | letter he' =>
      obtain ⟨rfl, hrest⟩ := List.cons.inj (List.cons.inj h).2
      exact ⟨shortEscape?_injective he he', hrest⟩
    | code => exact absurd (List.cons.inj (List.cons.inj h).2).1 (ne_of_shortEscape? he).1
    | itself hd => exact absurd (List.cons.inj h).1.symm (ne_of_shortEscape?_none hd).2
  | code =>
    cases hd with
    | letter he => exact absurd (List.cons.inj (List.cons.inj h).2).1.symm (ne_of_shortEscape? he).1
    | code =>
      have hcode : hexCode c ++ ['\x7d'] ++ x = hexCode d ++ ['\x7d'] ++ y :=
        (List.cons.inj (List.cons.inj (List.cons.inj h).2).2).2
      rw [List.append_assoc, List.append_assoc] at hcode
      exact hexCode_append_inj hcode
    | itself hd => exact absurd (List.cons.inj h).1.symm (ne_of_shortEscape?_none hd).2
  | itself hc =>
    cases hd with
    | letter _ | code => exact absurd (List.cons.inj h).1 (ne_of_shortEscape?_none hc).2
    | itself _ => exact List.cons.inj h

theorem EscapeOf.ne_nil {c : Char} {cs : List Char} (h : EscapeOf c cs) : cs ≠ [] := by
  cases h <;> exact List.cons_ne_nil _ _

theorem EscapeOf.newline_not_mem {c : Char} {cs : List Char} (h : EscapeOf c cs) : '\n' ∉ cs := by
  cases h with
  | letter he => simp [(ne_of_shortEscape? he).2.symm]
  | code =>
    have hcode : '\n' ∉ hexCode c := fun hmem => (ne_of_mem_toDigits hmem).2 rfl
    simp [hcode]
  | itself h =>
    intro hmem
    rw [← List.mem_singleton.mp hmem] at h
    cases h

/-! ## texts -/

theorem flatMap_escape_injective {cs ds : List Char} (h : cs.flatMap escape = ds.flatMap escape) :
    cs = ds := by
  induction cs generalizing ds with
  | nil =>
    cases ds with
    | nil => rfl
    | cons d ds =>
      rw [List.flatMap_nil, List.flatMap_cons] at h
      exact absurd (List.append_eq_nil_iff.mp h.symm).1 (escapeOf_escape d).ne_nil
  | cons c cs ih =>
    cases ds with
    | nil =>
      rw [List.flatMap_nil, List.flatMap_cons] at h
      exact absurd (List.append_eq_nil_iff.mp h).1 (escapeOf_escape c).ne_nil
    | cons d ds =>
      rw [List.flatMap_cons, List.flatMap_cons] at h
      obtain ⟨rfl, hrest⟩ := (escapeOf_escape c).append_inj (escapeOf_escape d) h
      rw [ih hrest]

theorem quoted_injective {s t : String} (h : quoted s = quoted t) : s = t := by
  have hlist := congrArg String.toList h
  rw [toList_quoted, toList_quoted] at hlist
  have hbody := (List.cons.inj (List.append_cancel_right hlist)).2
  exact String.toList_inj.mp (flatMap_escape_injective hbody)

theorem newline_not_mem_quoted (s : String) : '\n' ∉ (quoted s).toList := by
  rw [toList_quoted]
  intro h
  rcases List.mem_append.mp h with h | h
  · rcases List.mem_cons.mp h with h | h
    · cases h
    · obtain ⟨c, _, hc⟩ := List.mem_flatMap.mp h
      exact (escapeOf_escape c).newline_not_mem hc
  · cases List.mem_singleton.mp h

end Text

end TraceFront
