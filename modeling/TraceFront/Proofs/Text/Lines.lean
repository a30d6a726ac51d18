import Mathlib.Data.List.Basic
import Mathlib.Data.List.TakeWhile
import TraceFront.Diagnostic.Render
import TraceFront.Proofs.Source.Hygiene

/-!
# The line around a place

A place cuts a text in two.  The line around it is cut in two as well: `left` is what the line has
before the place, and `right` what it has behind it.

* `LineStart`, `LineStop`     where a line starts, and where it stops;
* `LineAround`                the two parts of the line around a place;
* `exists_lineAround`         every place has a line around it;
* `lineAt_of_lineAround`      it is the line whose number counts the newlines before the place;
* `lineColumn_of_lineAround`  that number, and the column of the place in bytes.
-/

namespace TraceFront.Text

/-- a line starts behind the text, which is empty or ends with a newline -/
inductive LineStart : List Char → Prop
  | first : LineStart []
  | newline (cs : List Char) : LineStart (cs ++ ['\n'])

/-- a line stops before the text: there is none, or it starts with the end of the line -/
inductive LineStop (line : List Char) : List Char → Prop
  | last : LineStop line []
  | newline (cs : List Char) : line.getLast? ≠ some '\r' → LineStop line ('\n' :: cs)
  | returnNewline (cs : List Char) : LineStop line ('\r' :: '\n' :: cs)

/-- the line around the place between two parts of a text -/
structure LineAround (before after left right : List Char) : Prop where
  start : ∃ cs, before = cs ++ left ∧ LineStart cs
  stop : ∃ cs, after = right ++ cs ∧ LineStop right cs
  left : '\n' ∉ left
  right : '\n' ∉ right

/-- the place is on the end of a line -/
def OnLineEnd (after : List Char) : Prop := ['\n'] <+: after ∨ ['\r', '\n'] <+: after

/-! ## every place has a line -/

theorem exists_lineStart (before : List Char) :
    ∃ cs left, before = cs ++ left ∧ LineStart cs ∧ '\n' ∉ left := by
  induction before with
  | nil => exact ⟨[], [], rfl, .first, List.not_mem_nil⟩
  | cons c before ih =>
    obtain ⟨cs, left, rfl, hstart, hleft⟩ := ih
    cases hstart with
    | newline cs => exact ⟨c :: cs ++ ['\n'], left, rfl, .newline (c :: cs), hleft⟩
    | first =>
      by_cases hc : c = '\n'
      · exact ⟨[c], left, rfl, hc ▸ .newline [], hleft⟩
      · refine ⟨[], c :: left, rfl, .first, ?_⟩
        exact fun h => (List.mem_cons.mp h).elim (fun heq => hc heq.symm) hleft

theorem exists_lineStop (after : List Char) :
    ∃ right cs, after = right ++ cs ∧ LineStop right cs ∧ '\n' ∉ right := by
  induction after with
  | nil => exact ⟨[], [], rfl, .last, List.not_mem_nil⟩
  | cons c after ih =>
    obtain ⟨right, cs, rfl, hstop, hright⟩ := ih
    by_cases hc : c = '\n'
    · subst hc
      exact ⟨[], _, rfl, .newline _ nofun, List.not_mem_nil⟩
    have hline : '\n' ∉ c :: right :=
      fun h => (List.mem_cons.mp h).elim (fun heq => hc heq.symm) hright
    cases hstop with
    | last => exact ⟨c :: right, [], rfl, .last, hline⟩
    | returnNewline cs => exact ⟨c :: right, _, rfl, .returnNewline cs, hline⟩
    | newline cs hlast =>
      -- a return directly before the newline goes with it
      by_cases hreturn : right = [] ∧ c = '\r'
      · obtain ⟨rfl, rfl⟩ := hreturn
        exact ⟨[], _, rfl, .returnNewline cs, List.not_mem_nil⟩
      · refine ⟨c :: right, _, rfl, .newline cs ?_, hline⟩
        cases right with
        | nil => exact fun h => hreturn ⟨rfl, Option.some.inj h⟩
        | cons d right => exact hlast

theorem exists_lineAround (before after : List Char) :
    ∃ left right, LineAround before after left right := by
  obtain ⟨cs, left, hbefore, hstart, hleft⟩ := exists_lineStart before
  obtain ⟨right, ds, hafter, hstop, hright⟩ := exists_lineStop after
  exact ⟨left, right, ⟨cs, hbefore, hstart⟩, ⟨ds, hafter, hstop⟩, hleft, hright⟩

/-- a place that is not on the end of a line has some of the line behind it, unless the text ends -/
theorem LineAround.right_ne_nil {before after left right : List Char}
    (h : LineAround before after left right) (hne : after ≠ []) (hend : ¬OnLineEnd after) :
    right ≠ [] := by
  intro hnil
  obtain ⟨cs, hafter, hstop⟩ := h.stop
  rw [hnil, List.nil_append] at hafter
  subst hafter
  cases hstop with
  | last => exact hne rfl
  | newline cs _ => exact hend (.inl ⟨cs, rfl⟩)
  | returnNewline cs => exact hend (.inr ⟨cs, rfl⟩)

/-! ## the text of the line -/

theorem bne_newline_of_not_mem {line : List Char} (h : '\n' ∉ line) :
    ∀ c ∈ line, (c != '\n') = true := by
  intro c hc
  rw [bne_iff_ne]
  intro heq
  exact h (heq ▸ hc)

theorem firstLine_of_newline {line : List Char} (h : '\n' ∉ line) (cs : List Char) :
    firstLine (line ++ '\n' :: cs) = dropReturn line := by
  have hline := bne_newline_of_not_mem h
  have htake : ('\n' :: cs).takeWhile (· != '\n') = [] := rfl
  have hdrop : ('\n' :: cs).dropWhile (· != '\n') = '\n' :: cs := rfl
  rw [firstLine, List.takeWhile_append_of_pos hline, List.dropWhile_append_of_pos hline, htake,
    hdrop, List.append_nil]
  rfl

/-- the first line of a text is what stands before its end -/
theorem firstLine_of_lineStop {line cs : List Char} (h : '\n' ∉ line) (hstop : LineStop line cs) :
    firstLine (line ++ cs) = line := by
  cases hstop with
  | last =>
    have hline := bne_newline_of_not_mem h
    have htake : line.takeWhile (· != '\n') = line := List.takeWhile_eq_self_iff.mpr hline
    have hdrop : line.dropWhile (· != '\n') = [] := List.dropWhile_eq_nil_iff.mpr hline
    rw [List.append_nil, firstLine, htake, hdrop]
    rfl
  | newline cs hlast =>
    rw [firstLine_of_newline h, dropReturn, if_neg hlast]
  | returnNewline cs =>
    have hline : '\n' ∉ line ++ ['\r'] := by
      intro hmem
      obtain hmem | hmem := List.mem_append.mp hmem
      · exact h hmem
      · exact absurd (List.mem_singleton.mp hmem) (by decide)
    have hcut : line ++ '\r' :: '\n' :: cs = line ++ ['\r'] ++ '\n' :: cs := by simp
    rw [hcut, firstLine_of_newline hline, dropReturn, List.getLast?_concat, if_pos rfl,
      List.dropLast_concat]

theorem LineAround.firstLine_append {before after left right : List Char}
    (h : LineAround before after left right) (hne : right ≠ []) :
    firstLine (left ++ after) = left ++ right := by
  obtain ⟨cs, rfl, hstop⟩ := h.stop
  have hline : '\n' ∉ left ++ right := by
    intro hmem
    exact (List.mem_append.mp hmem).elim h.left h.right
  rw [← List.append_assoc]
  refine firstLine_of_lineStop hline ?_
  cases hstop with
  | last => exact .last
  | returnNewline cs => exact .returnNewline cs
  | newline cs hlast =>
    refine .newline cs ?_
    rw [List.getLast?_append_of_ne_nil _ hne]
    exact hlast

theorem lineAt_succ_newline (n : Nat) (cs : List Char) :
    lineAt (n + 1) ('\n' :: cs) = lineAt n cs := rfl

theorem lineAt_succ_cons {c : Char} (h : c ≠ '\n') (n : Nat) (cs : List Char) :
    lineAt (n + 1) (c :: cs) = lineAt (n + 1) cs := by
  have hdrop : (c :: cs).dropWhile (· != '\n') = cs.dropWhile (· != '\n') :=
    List.dropWhile_cons_of_pos (bne_iff_ne.mpr h)
  rw [lineAt, lineAt, afterNewline, afterNewline, hdrop]

/-- the line behind a newline has the number of newlines before it -/
theorem lineAt_behind_newline (cs after : List Char) :
    lineAt (cs.count '\n' + 1) (cs ++ '\n' :: after) = firstLine after := by
  induction cs with
  | nil => rfl
  | cons c cs ih =>
    by_cases hc : c = '\n'
    · subst hc
      rw [List.count_cons_self, List.cons_append, lineAt_succ_newline, ih]
    · rw [List.count_cons_of_ne hc, List.cons_append, lineAt_succ_cons hc, ih]

theorem LineStart.lineAt {cs : List Char} (h : LineStart cs) (after : List Char) :
    lineAt (cs.count '\n') (cs ++ after) = firstLine after := by
  cases h with
  | first => rfl
  | newline cs =>
    rw [List.count_append, List.count_singleton_self, List.append_assoc]
    exact lineAt_behind_newline cs after

theorem LineAround.count_before {before after left right : List Char}
    (h : LineAround before after left right) {cs : List Char} (hcs : before = cs ++ left) :
    before.count '\n' = cs.count '\n' := by
  rw [hcs, List.count_append, List.count_eq_zero.mpr h.left, Nat.add_zero]

/-- the line around a place is the line with the number of newlines before the place -/
theorem lineAt_of_lineAround {before after left right : List Char}
    (h : LineAround before after left right) (hne : right ≠ []) :
    lineAt (before.count '\n') (before ++ after) = left ++ right := by
  obtain ⟨cs, hcs, hstart⟩ := h.start
  rw [h.count_before hcs, hcs, List.append_assoc, hstart.lineAt, h.firstLine_append hne]

/-! ## its number, and the column of the place -/

/-- the UTF-8 bytes of a list of characters -/
def encoded (cs : List Char) : List UInt8 := cs.flatMap String.utf8EncodeChar

theorem encoded_append (cs ds : List Char) : encoded (cs ++ ds) = encoded cs ++ encoded ds :=
  List.flatMap_append

theorem length_encoded (cs : List Char) : (encoded cs).length = byteLength cs := by
  induction cs with
  | nil => rfl
  | cons c cs ih =>
    show (String.utf8EncodeChar c ++ encoded cs).length = _
    rw [List.length_append, String.length_utf8EncodeChar, ih, byteLength_cons]

theorem newline_mem_utf8EncodeChar {c : Char} :
    Span.newline ∈ String.utf8EncodeChar c ↔ '\n' = c :=
  toUInt8_mem_utf8EncodeChar (d := '\n') (by decide)

/-- bytes of newlines come from newlines -/
theorem newline_mem_encoded {cs : List Char} : Span.newline ∈ encoded cs ↔ '\n' ∈ cs := by
  rw [encoded, List.mem_flatMap]
  simp only [newline_mem_utf8EncodeChar, exists_eq_right']

theorem count_encoded (cs : List Char) : (encoded cs).count Span.newline = cs.count '\n' := by
  induction cs with
  | nil => rfl
  | cons c cs ih =>
    show (String.utf8EncodeChar c ++ encoded cs).count _ = _
    rw [List.count_append, ih]
    by_cases hc : c = '\n'
    · subst hc
      rw [List.count_cons_self, Nat.add_comm]
      rfl
    · have hzero : (String.utf8EncodeChar c).count Span.newline = 0 :=
        List.count_eq_zero.mpr fun h => hc (newline_mem_utf8EncodeChar.mp h).symm
      rw [hzero, Nat.zero_add, List.count_cons_of_ne hc]

theorem LineStart.takeWhile_reverse {cs : List Char} (h : LineStart cs) :
    (encoded cs).reverse.takeWhile (· != Span.newline) = [] := by
  cases h with
  | first => rfl
  | newline cs =>
    rw [encoded_append, List.reverse_append]
    rfl

/-- the bytes since the last newline are those of the line before the place -/
theorem LineAround.takeWhile_reverse {before after left right : List Char}
    (h : LineAround before after left right) :
    (encoded before).reverse.takeWhile (· != Span.newline) = (encoded left).reverse := by
  obtain ⟨cs, rfl, hstart⟩ := h.start
  have hleft : ∀ b ∈ (encoded left).reverse, (b != Span.newline) = true := by
    intro b hb
    rw [bne_iff_ne]
    intro heq
    rw [heq, List.mem_reverse, newline_mem_encoded] at hb
    exact h.left hb
  rw [encoded_append, List.reverse_append, List.takeWhile_append_of_pos hleft,
    hstart.takeWhile_reverse, List.append_nil]

/-- line and column of a place -/
theorem lineColumn_of_lineAround {text : String} {span : Span} {before after left right : List Char}
    (htext : text.toList = before ++ after) (hstart : span.start = byteLength before)
    (h : LineAround before after left right) :
    span.lineColumn text = (before.count '\n' + 1, byteLength left + 1) := by
  have hbytes : bytes text = encoded before ++ encoded after := by
    rw [bytes_eq_flatMap, htext]
    exact encoded_append before after
  have htake : (bytes text).take span.start = encoded before := by
    rw [hbytes, hstart, ← length_encoded]
    exact List.take_left
  rw [Span.lineColumn, Span.lineColumnAt, htake, h.takeWhile_reverse, count_encoded,
    List.length_reverse, length_encoded]

end TraceFront.Text
