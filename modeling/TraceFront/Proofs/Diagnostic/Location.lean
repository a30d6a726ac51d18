import Mathlib.Algebra.GroupWithZero.Nat
import Mathlib.Algebra.Order.BigOperators.Group.List
import Mathlib.Algebra.Order.Group.Nat
import Mathlib.Data.Prod.Lex
import TraceFront.Proofs.Text.Lines
import TraceFront.Proofs.Tree.AddressText

/-!
# Lines and columns of offsets

Lines are counted in two ways.  The number of a line is one more than the newlines among the bytes
before an offset.  The text of a line is found among the characters, where a carriage return in front
of a newline is no part of the line and the text behind the last newline may be empty.  Both are
compared here with the parts of the text between its newlines.

* `Text.lines`, `Text.lineStart`   these parts, and the byte at which each of them starts;
* `Text.lineInduction`             a text is a last line, or a line in front of a text;
* `Text.At`                        the line that an offset is on, and the bytes of it before the offset;
* `Text.Shown`                     what is shown of a line;
* `Source.lineOf_locates`          line, column and text that are reported for a span.

An offset may be inside a character: nothing here asks that characters are of one byte.
-/

namespace TraceFront

namespace Text

/-! ## the lines of a text -/

/-- the parts of a text between its newlines -/
def lines (cs : List Char) : List (List Char) := cs.splitOn '\n'

/-- the byte at which the line with number `n` starts, counted from zero: there are `n` lines before
it, each with its newline -/
def lineStart (cs : List Char) (n : Nat) : Nat :=
  (((lines cs).take n).map fun l => byteLength l + 1).sum

theorem intercalate_lines (cs : List Char) : ['\n'].intercalate (lines cs) = cs :=
  List.intercalate_splitOn '\n'

theorem newline_not_mem_lines {cs : List Char} : ∀ l ∈ lines cs, '\n' ∉ l := by
  intro l hl
  rw [lines, ← segments_eq_splitOn] at hl
  exact not_mem_of_mem_segments hl

theorem lines_last {l : List Char} (hl : '\n' ∉ l) : lines l = [l] := by
  have hlines := List.splitOn_intercalate '\n' (List.forall_mem_singleton.mpr hl) (by simp)
  rwa [List.intercalate_singleton] at hlines

theorem lines_cons {l : List Char} (hl : '\n' ∉ l) (cs : List Char) :
    lines (l ++ '\n' :: cs) = l :: lines cs := by
  obtain ⟨m, ms, hms⟩ := List.exists_cons_of_ne_nil (List.splitOn_ne_nil '\n' cs)
  have hall : ∀ k ∈ l :: lines cs, '\n' ∉ k := List.forall_mem_cons.mpr ⟨hl, newline_not_mem_lines⟩
  have hcut : l ++ '\n' :: cs = ['\n'].intercalate (l :: lines cs) := by
    have hcs := intercalate_lines cs
    rw [lines, hms] at hcs ⊢
    rw [List.intercalate_cons_cons, hcs, List.append_assoc, List.singleton_append]
  rw [hcut]
  exact List.splitOn_intercalate '\n' hall (List.cons_ne_nil _ _)

/-- what holds of every last line, and of a text with a line in front, holds of every text -/
theorem lineInduction {motive : List Char → Prop} (last : ∀ l, '\n' ∉ l → motive l)
    (line : ∀ l cs, '\n' ∉ l → motive cs → motive (l ++ '\n' :: cs)) (cs : List Char) :
    motive cs := by
  suffices h : ∀ ls : List (List Char), (∀ l ∈ ls, '\n' ∉ l) → ls ≠ [] →
      motive (['\n'].intercalate ls) by
    rw [← intercalate_lines cs]
    exact h (lines cs) newline_not_mem_lines (List.splitOn_ne_nil '\n' cs)
  intro ls hls hne
  induction ls with
  | nil => exact absurd rfl hne
  | cons l ls ih =>
    obtain ⟨hl, hls⟩ := List.forall_mem_cons.mp hls
    cases ls with
    | nil =>
      rw [List.intercalate_singleton]
      exact last l hl
    | cons m ms =>
      rw [List.intercalate_cons_cons, List.append_assoc]
      exact line l _ hl (ih hls (List.cons_ne_nil _ _))

theorem bytes_eq_encoded (s : String) : bytes s = encoded s.toList := bytes_eq_flatMap s

theorem lineStart_zero (cs : List Char) : lineStart cs 0 = 0 := rfl

theorem lineStart_add {l : List Char} (hl : '\n' ∉ l) (cs : List Char) (n : Nat) :
    lineStart (l ++ '\n' :: cs) (n + 1) = byteLength l + 1 + lineStart cs n := by
  rw [lineStart, lines_cons hl, List.take_succ_cons, List.map_cons, List.sum_cons, lineStart]

theorem lineStart_succ {cs line : List Char} {n : Nat} (h : (lines cs)[n]? = some line) :
    lineStart cs (n + 1) = lineStart cs n + (byteLength line + 1) := by
  obtain ⟨hn, rfl⟩ := List.getElem?_eq_some_iff.mp h
  rw [lineStart, List.take_succ_eq_append_getElem hn, List.map_append, List.sum_append, lineStart,
    List.map_singleton, List.sum_singleton]

theorem lineStart_mono (cs : List Char) {m n : Nat} (h : m ≤ n) :
    lineStart cs m ≤ lineStart cs n := by
  have hsub : ((lines cs).take m).Sublist ((lines cs).take n) :=
    (List.take_prefix_take_left h).sublist
  exact (hsub.map _).sum_le_sum fun _ _ => Nat.zero_le _

/-! ## the line of an offset -/

/-- the offset `o` is on the line with number `n`, counted from zero, behind `k` bytes of it -/
structure At (cs : List Char) (o n k : Nat) (line : List Char) : Prop where
  isLine : (lines cs)[n]? = some line
  offset : o = lineStart cs n + k
  inside : k ≤ byteLength line

theorem exists_at {cs : List Char} :
    ∀ {o : Nat}, o ≤ byteLength cs → ∃ n k line, At cs o n k line := by
  induction cs using lineInduction with
  | last l hl =>
    intro o ho
    refine ⟨0, o, l, ?_, (Nat.zero_add o).symm, ho⟩
    rw [lines_last hl]
    rfl
  | line l cs hl ih =>
    intro o ho
    by_cases hfirst : o ≤ byteLength l
    · refine ⟨0, o, l, ?_, (Nat.zero_add o).symm, hfirst⟩
      rw [lines_cons hl]
      rfl
    · have hsize : byteLength (l ++ '\n' :: cs) = byteLength l + (1 + byteLength cs) := by
        rw [byteLength_append, byteLength_cons]
        rfl
      have hrest : o - (byteLength l + 1) ≤ byteLength cs := by omega
      obtain ⟨n, k, line, h⟩ := ih hrest
      refine ⟨n + 1, k, line, ?_, ?_, h.inside⟩
      · rw [lines_cons hl]
        exact h.isLine
      · have hoffset := h.offset
        rw [lineStart_add hl]
        omega

/-- an offset is on the first line, or on a line of the text behind it -/
theorem At.cases {l cs : List Char} (hl : '\n' ∉ l) {o n k : Nat} {line : List Char}
    (h : At (l ++ '\n' :: cs) o n k line) :
    (n = 0 ∧ o = k ∧ line = l ∧ k ≤ byteLength l) ∨
      ∃ m o', n = m + 1 ∧ o = byteLength l + 1 + o' ∧ At cs o' m k line := by
  obtain ⟨hline, hoffset, hinside⟩ := h
  rw [lines_cons hl] at hline
  cases n with
  | zero =>
    obtain rfl := Option.some.inj hline
    exact .inl ⟨rfl, by rw [hoffset, lineStart_zero, Nat.zero_add], rfl, hinside⟩
  | succ n =>
    rw [lineStart_add hl, Nat.add_assoc] at hoffset
    exact .inr ⟨n, _, rfl, hoffset, hline, rfl, hinside⟩

theorem At.of_last {l : List Char} (hl : '\n' ∉ l) {o n k : Nat} {line : List Char}
    (h : At l o n k line) : n = 0 ∧ o = k ∧ line = l := by
  obtain ⟨hline, hoffset, _⟩ := h
  rw [lines_last hl] at hline
  cases n with
  | zero => exact ⟨rfl, by rw [hoffset, lineStart_zero, Nat.zero_add], (Option.some.inj hline).symm⟩
  | succ n => cases hline

theorem encoded_line (l cs : List Char) :
    encoded (l ++ '\n' :: cs) = encoded l ++ Span.newline :: encoded cs := encoded_append l ('\n' :: cs)

/-- the bytes of a line hold no newline, whatever is behind them -/
theorem newline_not_mem_take {l : List Char} (hl : '\n' ∉ l) {o : Nat} (ho : o ≤ byteLength l)
    (rest : List UInt8) : Span.newline ∉ (encoded l ++ rest).take o := by
  intro h
  rw [List.take_append_of_le_length (by rwa [length_encoded])] at h
  exact hl (newline_mem_encoded.mp (List.mem_of_mem_take h))

theorem lineColumnAt_of_le {l : List Char} (hl : '\n' ∉ l) {o : Nat} (ho : o ≤ byteLength l)
    (rest : List UInt8) : Span.lineColumnAt o (encoded l ++ rest) = (1, o + 1) := by
  have hnone := newline_not_mem_take hl ho rest
  have hall : ∀ b ∈ ((encoded l ++ rest).take o).reverse, (b != Span.newline) = true := by
    intro b hb
    rw [bne_iff_ne]
    rintro rfl
    exact hnone (List.mem_reverse.mp hb)
  have hlength : ((encoded l ++ rest).take o).length = o := by
    rw [List.length_take_of_le]
    rw [List.length_append, length_encoded]
    omega
  rw [Span.lineColumnAt, List.count_eq_zero.mpr hnone, List.takeWhile_eq_self_iff.mpr hall,
    List.length_reverse, hlength]

theorem takeWhile_newline (xs ys : List UInt8) :
    (xs ++ Span.newline :: ys).takeWhile (· != Span.newline) = xs.takeWhile (· != Span.newline) := by
  induction xs with
  | nil => rfl
  | cons b xs ih =>
    rw [List.cons_append, List.takeWhile_cons, List.takeWhile_cons, ih]

/-- behind the first newline the lines count one more, and the columns count from there -/
theorem lineColumnAt_add {l : List Char} (hl : '\n' ∉ l) (o : Nat) (rest : List UInt8) :
    Span.lineColumnAt (byteLength l + 1 + o) (encoded l ++ Span.newline :: rest)
      = ((Span.lineColumnAt o rest).1 + 1, (Span.lineColumnAt o rest).2) := by
  have htake : (encoded l ++ Span.newline :: rest).take (byteLength l + 1 + o)
      = encoded l ++ Span.newline :: rest.take o := by
    rw [Nat.add_assoc, Nat.add_comm 1 o, ← length_encoded, List.take_length_add_append,
      List.take_succ_cons]
  have hnone : Span.newline ∉ encoded l := fun h => hl (newline_mem_encoded.mp h)
  rw [Span.lineColumnAt, htake, List.count_append, List.count_eq_zero.mpr hnone,
    List.count_cons_self, List.reverse_append, List.reverse_cons, List.append_assoc,
    List.singleton_append, takeWhile_newline, Nat.zero_add]
  rfl

theorem At.lineColumnAt {cs : List Char} : ∀ {o n k : Nat} {line : List Char}, At cs o n k line →
    Span.lineColumnAt o (encoded cs) = (n + 1, k + 1) := by
  induction cs using lineInduction with
  | last l hl =>
    intro o n k line h
    have hinside := h.inside
    obtain ⟨rfl, rfl, rfl⟩ := h.of_last hl
    rw [← List.append_nil (encoded line)]
    exact lineColumnAt_of_le hl hinside []
  | line l cs hl ih =>
    intro o n k line h
    rw [encoded_line]
    rcases h.cases hl with ⟨rfl, rfl, rfl, hinside⟩ | ⟨m, o', rfl, rfl, hrest⟩
    · exact lineColumnAt_of_le hl hinside _
    · rw [lineColumnAt_add hl, ih hrest]

/-- no newline is between the start of the line and the offset -/
theorem At.between {cs : List Char} : ∀ {o n k : Nat} {line : List Char}, At cs o n k line →
    Span.newline ∉ ((encoded cs).drop (lineStart cs n)).take k := by
  induction cs using lineInduction with
  | last l hl =>
    intro o n k line h
    have hinside := h.inside
    obtain ⟨rfl, rfl, rfl⟩ := h.of_last hl
    have hnone := newline_not_mem_take hl hinside []
    rwa [List.append_nil] at hnone
  | line l cs hl ih =>
    intro o n k line h
    rw [encoded_line]
    rcases h.cases hl with ⟨rfl, rfl, rfl, hinside⟩ | ⟨m, o', rfl, rfl, hrest⟩
    · exact newline_not_mem_take hl hinside _
    · have hdrop : (encoded l ++ Span.newline :: encoded cs).drop (byteLength l + 1 + lineStart cs m)
          = (encoded cs).drop (lineStart cs m) := by
        rw [Nat.add_assoc, Nat.add_comm 1, ← length_encoded, List.drop_length_add_append,
          List.drop_succ_cons]
      rw [lineStart_add hl, hdrop]
      exact ih hrest

/-- offsets are ordered by their lines, and on one line by the bytes before them -/
theorem At.lt_iff {cs : List Char} {o n k o' n' k' : Nat} {line line' : List Char}
    (h : At cs o n k line) (h' : At cs o' n' k' line') :
    (n < n' ∨ n = n' ∧ k < k') ↔ o < o' := by
  have before : ∀ {o n k o' n' k' : Nat} {line line' : List Char}, At cs o n k line →
      At cs o' n' k' line' → n < n' → o < o' := by
    intro o n k o' n' k' line line' h h' hlt
    have hmono := lineStart_mono cs (Nat.succ_le_of_lt hlt)
    rw [lineStart_succ h.isLine] at hmono
    have hinside := h.inside
    have hoffset := h.offset
    have hoffset' := h'.offset
    omega
  rcases Nat.lt_trichotomy n n' with hlt | rfl | hgt
  · exact iff_of_true (.inl hlt) (before h h' hlt)
  · have hoffset := h.offset
    have hoffset' := h'.offset
    omega
  · have hback := before h' h hgt
    omega

/-! ## what is shown of a line -/

/-- what is shown of a line: all of it, but for a carriage return in front of its newline -/
inductive Shown (ended : Prop) : List Char → List Char → Prop
  | all {line : List Char} (h : ended → line.getLast? ≠ some '\r') : Shown ended line line
  | withoutReturn (h : ended) (line : List Char) : Shown ended (line ++ ['\r']) line

theorem shown_dropReturn {ended : Prop} (h : ended) (line : List Char) :
    Shown ended line (dropReturn line) := by
  rw [dropReturn]
  split
  · rename_i hreturn
    obtain ⟨line, rfl⟩ := List.getLast?_eq_some_iff.mp hreturn
    rw [List.dropLast_concat]
    exact .withoutReturn h line
  · rename_i hreturn
    exact .all fun _ => hreturn

theorem lineAt_add {l : List Char} (hl : '\n' ∉ l) (n : Nat) (cs : List Char) :
    lineAt (n + 1) (l ++ '\n' :: cs) = lineAt n cs := by
  have hdrop : (l ++ '\n' :: cs).dropWhile (· != '\n') = '\n' :: cs := by
    rw [List.dropWhile_append_of_pos (bne_newline_of_not_mem hl)]
    rfl
  rw [lineAt, afterNewline, hdrop, List.tail_cons]

theorem lines_length_pos (cs : List Char) : 0 < (lines cs).length :=
  List.length_pos_of_ne_nil (List.splitOn_ne_nil '\n' cs)

theorem shown_lineAt {cs : List Char} : ∀ {n : Nat} {line : List Char}, (lines cs)[n]? = some line →
    Shown (n + 1 < (lines cs).length) line (lineAt n cs) := by
  induction cs using lineInduction with
  | last l hl =>
    intro n line h
    rw [lines_last hl] at h ⊢
    cases n with
    | zero =>
      obtain rfl := Option.some.inj h
      have hline : firstLine l = l := by
        have hfirst := firstLine_of_lineStop hl .last
        rwa [List.append_nil] at hfirst
      rw [lineAt, hline]
      exact .all fun hended => absurd hended (Nat.lt_irrefl 1)
    | succ n => cases h
  | line l cs hl ih =>
    intro n line h
    rw [lines_cons hl] at h ⊢
    rw [List.length_cons]
    cases n with
    | zero =>
      obtain rfl := Option.some.inj h
      rw [lineAt, firstLine_of_newline hl]
      exact shown_dropReturn (Nat.succ_lt_succ (lines_length_pos cs)) l
    | succ n =>
      rw [lineAt_add hl, Nat.add_lt_add_iff_right]
      exact ih h

theorem Shown.of_nil {ended : Prop} {line shown : List Char} (h : Shown ended line shown)
    (hline : line = []) : shown = [] := by
  cases h with
  | all _ => exact hline
  | withoutReturn _ _ => exact absurd hline (by simp)

/-- behind a newline at the end there is one more line, an empty one -/
theorem At.eq_nil_of_end {cs : List Char} (hend : cs.getLast? = some '\n') :
    ∀ {n k : Nat} {line : List Char}, At cs (byteLength cs) n k line → line = [] := by
  induction cs using lineInduction with
  | last l hl => exact absurd (List.mem_of_getLast? hend) hl
  | line l cs hl ih =>
    intro n k line h
    have hsize : byteLength (l ++ '\n' :: cs) = byteLength l + 1 + byteLength cs := by
      rw [byteLength_append, byteLength_cons, ← Nat.add_assoc]
      rfl
    rw [hsize] at h
    rcases h.cases hl with ⟨_, hk, _, hinside⟩ | ⟨m, o', _, hoffset, hrest⟩
    · omega
    · obtain rfl : o' = byteLength cs := by omega
      cases cs with
      | nil => exact (hrest.of_last List.not_mem_nil).2.2
      | cons c cs =>
        refine ih ?_ hrest
        rwa [List.getLast?_append_of_ne_nil _ (List.cons_ne_nil _ _), List.getLast?_cons_cons] at hend

end Text

/-! ## what is reported -/

open Text

theorem Span.lineColumn_eq (s : Span) (text : String) :
    s.lineColumn text = lineColumnAt s.start (encoded text.toList) := by
  rw [lineColumn, bytes_eq_encoded]

/-- an offset behind the end counts as the end -/
theorem Span.lineColumnAt_min (o : Nat) (cs : List Char) :
    lineColumnAt o (encoded cs) = lineColumnAt (min o (byteLength cs)) (encoded cs) := by
  rw [lineColumnAt, lineColumnAt, ← length_encoded, ← List.take_eq_take_min]

theorem Text.At.lineColumn {text : String} {s : Span} {n k : Nat} {line : List Char}
    (h : At text.toList (min s.start (byteLength text.toList)) n k line) :
    s.lineColumn text = (n + 1, k + 1) := by
  rw [Span.lineColumn_eq, Span.lineColumnAt_min, h.lineColumnAt]

theorem Text.At.lineOf {file : Source} {s : Span} {n k : Nat} {line : List Char}
    (h : At file.text.toList (min s.start (byteLength file.text.toList)) n k line) :
    file.lineOf s = (n + 1, k + 1, String.ofList (lineAt n file.text.toList)) := by
  rw [Source.lineOf, h.lineColumn]
  rfl

theorem Text.exists_at_span (cs : List Char) (s : Span) :
    ∃ n k line, At cs (min s.start (byteLength cs)) n k line := exists_at (Nat.min_le_right _ _)

theorem Span.lineColumn_lt_iff {text : String} {s t : Span} (hs : s.start ≤ byteLength text.toList)
    (ht : t.start ≤ byteLength text.toList) :
    toLex (s.lineColumn text) < toLex (t.lineColumn text) ↔ s.start < t.start := by
  obtain ⟨n, k, line, hat⟩ := exists_at_span text.toList s
  obtain ⟨n', k', line', hat'⟩ := exists_at_span text.toList t
  have horder := hat.lt_iff hat'
  rw [Nat.min_eq_left hs, Nat.min_eq_left ht] at horder
  rw [hat.lineColumn, hat'.lineColumn, Prod.Lex.toLex_lt_toLex, ← horder]
  show n + 1 < n' + 1 ∨ n + 1 = n' + 1 ∧ k + 1 < k' + 1 ↔ _
  omega

theorem Span.lineColumn_eq_iff {text : String} {s t : Span} (hs : s.start ≤ byteLength text.toList)
    (ht : t.start ≤ byteLength text.toList) :
    s.lineColumn text = t.lineColumn text ↔ s.start = t.start := by
  constructor
  · intro h
    have hlt := lineColumn_lt_iff hs ht
    have hgt := lineColumn_lt_iff ht hs
    rw [h] at hlt hgt
    have hirrefl := lt_irrefl (toLex (t.lineColumn text))
    exact Nat.le_antisymm (Nat.not_lt.mp fun h => hirrefl (hgt.mpr h))
      (Nat.not_lt.mp fun h => hirrefl (hlt.mpr h))
  · intro h
    rw [lineColumn, lineColumn, h]

/-- **Line and column identify an offset and its line.**  The line reported for a span is the one that
holds its start, counted from one, and the column counts the bytes of the line up to there.  Offsets in
a source are ordered by line and column, and every offset behind the end counts as the end.  The text
that is shown is that of the line, without a carriage return exactly if one stands in front of the
newline of the line. -/
theorem Source.lineOf_locates (file : Source) :
    let cs := file.text.toList
    (∀ s : Span, ∃ n k line shown, At cs (min s.start (byteLength cs)) n k line ∧
      s.lineColumn file.text = (n + 1, k + 1) ∧
      Span.newline ∉ ((bytes file.text).drop (lineStart cs n)).take k ∧
      file.lineOf s = (n + 1, k + 1, String.ofList shown) ∧
      Shown (n + 1 < (lines cs).length) line shown) ∧
    (∀ s t : Span, s.start ≤ byteLength cs → t.start ≤ byteLength cs →
      (toLex (s.lineColumn file.text) < toLex (t.lineColumn file.text) ↔ s.start < t.start) ∧
      (s.lineColumn file.text = t.lineColumn file.text ↔ s.start = t.start)) ∧
    (∀ s t : Span, s.start = byteLength cs → byteLength cs ≤ t.start →
      t.lineColumn file.text = s.lineColumn file.text) ∧
    (∀ s : Span, cs.getLast? = some '\n' → byteLength cs ≤ s.start → (file.lineOf s).2.2 = "") := by
  intro cs
  refine ⟨?_, fun s t hs ht => ⟨Span.lineColumn_lt_iff hs ht, Span.lineColumn_eq_iff hs ht⟩, ?_, ?_⟩
  · intro s
    obtain ⟨n, k, line, hat⟩ := exists_at_span cs s
    have hbetween := hat.between
    rw [← bytes_eq_encoded] at hbetween
    exact ⟨n, k, line, lineAt n cs, hat, hat.lineColumn, hbetween, hat.lineOf, shown_lineAt hat.isLine⟩
  · intro s t hs ht
    rw [Span.lineColumn_eq, Span.lineColumn_eq, Span.lineColumnAt_min, Nat.min_eq_right ht, hs]
  · intro s hend hs
    obtain ⟨n, k, line, hat⟩ := exists_at_span cs s
    rw [hat.lineOf]
    rw [Nat.min_eq_right hs] at hat
    exact congrArg String.ofList ((shown_lineAt hat.isLine).of_nil (hat.eq_nil_of_end hend))

/-- inside a character, behind a carriage return, and behind the newline at the end -/
theorem Source.lineOf_locates_unusual_places :
    let file : Source := ⟨"m", "é\r\nb\n"⟩
    file.lineOf ⟨1, 2⟩ = (1, 2, "é") ∧ file.lineOf ⟨3, 4⟩ = (1, 4, "é") ∧
      toLex (Span.lineColumn ⟨1, 2⟩ file.text) < toLex (Span.lineColumn ⟨3, 4⟩ file.text) ∧
      Span.lineColumn ⟨9, 9⟩ file.text = (3, 1) ∧ (file.lineOf ⟨9, 9⟩).2.2 = "" := by
  intro file
  obtain ⟨_, horder, hbehind, hlast⟩ := lineOf_locates file
  have hinside : file.lineOf ⟨1, 2⟩ = (1, 2, "é") := by decide
  have hreturn : file.lineOf ⟨3, 4⟩ = (1, 4, "é") := by decide
  have hend : Span.lineColumn ⟨6, 6⟩ file.text = (3, 1) := by decide
  refine ⟨hinside, hreturn, ?_, ?_, hlast ⟨9, 9⟩ (by decide) (by decide)⟩
  · exact (horder ⟨1, 2⟩ ⟨3, 4⟩ (by decide) (by decide)).1.mpr (by decide)
  · rw [hbehind ⟨6, 6⟩ ⟨9, 9⟩ (by decide) (by decide), hend]

end TraceFront
