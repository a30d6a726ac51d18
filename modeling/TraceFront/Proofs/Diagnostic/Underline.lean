import TraceFront.Proofs.Source.Length
import TraceFront.Proofs.Text.Lines

/-!
# The underline of a label

A primary label quotes the line on which it starts and underlines its part of that line.  Blanks
and marks are counted from byte offsets, the line itself in characters, so the underline sits under
the labelled part exactly if bytes and characters agree where they are mixed up.

* `quotation`                  a quoted line with blanks and marks below it,
* `quotation_inj`              which tells how many of them there are;
* `Label.Marks`                a label over a part of a source;
* `Renderer.label_of_marks`    what is written for it;
* `marks_eq_iff`               when that is one mark for each character.
-/

namespace TraceFront

open Text

/-! ## characters of one byte -/

theorem Text.byteLength_eq_length_iff (cs : List Char) :
    byteLength cs = cs.length ↔ ∀ c ∈ cs, c.utf8Size = 1 := by
  induction cs with
  | nil => exact ⟨fun _ _ => nofun, fun _ => rfl⟩
  | cons c cs ih =>
    have hpos := c.utf8Size_pos
    have hle := length_le_byteLength cs
    rw [List.forall_mem_cons, ← ih, byteLength_cons, List.length_cons]
    omega

/-! ## the quoted line -/

/-- the place of a label and the quoted line, up to the margin below it -/
def quotedLine (file : Source) (line column : Nat) (text : List Char) : String :=
  let pad := repeated ' ' line.repr.length
  pad ++ "--> " ++ file.path ++ ":" ++ line.repr ++ ":" ++ column.repr ++ "\n"
    ++ (pad ++ " |") ++ "\n"
    ++ (line.repr ++ " |") ++ " " ++ String.ofList text ++ "\n"
    ++ (pad ++ " |")

/-- `blanks` blanks and `marks` marks, and the message behind them -/
def underlined (message : String) (blanks marks : Nat) : String :=
  repeated ' ' blanks ++ repeated '^' marks ++ " " ++ message

/-- a quoted line with `blanks` blanks and `marks` marks below it -/
def quotation (file : Source) (message : String) (line column : Nat) (text : List Char)
    (blanks marks : Nat) : String :=
  quotedLine file line column text ++ underlined message blanks marks ++ "\n"

theorem count_repeated_self (c : Char) (n : Nat) : (repeated c n).toList.count c = n := by
  rw [repeated, String.toList_ofList, List.count_replicate_self]

theorem count_repeated_of_ne {c d : Char} (h : c ≠ d) (n : Nat) :
    (repeated c n).toList.count d = 0 := by
  rw [repeated, String.toList_ofList, List.count_replicate, if_neg (by simpa using h)]

/-- the message adds the same number of each character to both sides -/
theorem underlined_inj {message : String} {blanks blanks' marks marks' : Nat} :
    underlined message blanks marks = underlined message blanks' marks' ↔
      blanks = blanks' ∧ marks = marks' := by
  constructor
  · intro h
    have hblanks := congrArg (·.toList.count ' ') h
    have hmarks := congrArg (·.toList.count '^') h
    have hne : '^' ≠ ' ' := by decide
    simp only [underlined, String.toList_append, List.count_append, count_repeated_self,
      count_repeated_of_ne hne, count_repeated_of_ne hne.symm] at hblanks hmarks
    omega
  · intro ⟨hblanks, hmarks⟩
    rw [hblanks, hmarks]

theorem quotation_inj {file : Source} {message : String} {line column : Nat} {text : List Char}
    {blanks blanks' marks marks' : Nat} :
    quotation file message line column text blanks marks
        = quotation file message line column text blanks' marks' ↔
      blanks = blanks' ∧ marks = marks' := by
  rw [quotation, quotation, String.append_left_inj, String.append_right_inj, underlined_inj]

/-! ## the label of a part of a source -/

/-- a primary label over the part `inside` of a source, which starts on a line and not on its end -/
structure Label.Marks (l : Label) (file : Source) (before inside after : List Char) : Prop where
  primary : l.primary = true
  text : file.text.toList = before ++ (inside ++ after)
  span : l.span = ⟨byteLength before, byteLength before + byteLength inside⟩
  nonempty : inside ≠ []
  place : ¬OnLineEnd (inside ++ after)

section

variable {l : Label} {file : Source} {before inside after left right : List Char}

theorem Label.Marks.length_span (h : l.Marks file before inside after) :
    l.span.length = byteLength inside := by
  rw [h.span, Span.length, Nat.add_sub_cancel_left]

theorem Label.Marks.right_ne_nil (h : l.Marks file before inside after)
    (hline : LineAround before (inside ++ after) left right) : right ≠ [] :=
  hline.right_ne_nil (List.append_ne_nil_of_left_ne_nil h.nonempty _) h.place

theorem Label.Marks.lineOf (h : l.Marks file before inside after)
    (hline : LineAround before (inside ++ after) left right) :
    file.lineOf l.span
      = (before.count '\n' + 1, byteLength left + 1, String.ofList (left ++ right)) := by
  have hstart : l.span.start = byteLength before := by rw [h.span]
  have htext : lineAt (before.count '\n') file.text.toList = left ++ right := by
    rw [h.text]
    exact lineAt_of_lineAround hline (h.right_ne_nil hline)
  rw [Source.lineOf, lineColumn_of_lineAround h.text hstart hline, ← htext]
  rfl

theorem Renderer.label_of_lineOf {line column : Nat} {text : List Char}
    (hprimary : l.primary = true)
    (hline : file.lineOf l.span = (line, column, String.ofList text)) (severity : Severity) :
    label ⟨false, some file⟩ severity l
      = quotation file l.message line column text column
          (markCount text.length column l.span.length) := by
  have hlength : (String.ofList text).toList.length = text.length := by rw [String.toList_ofList]
  show (if l.primary then _ else _) = _
  rw [if_pos hprimary, ← hlength]
  -- the equation of so long a text is slow to make, and is not needed
  delta primaryLabel
  rw [hline]
  rfl

/-- the label of a part of a source, as it is written: blanks and marks follow the bytes -/
theorem Renderer.label_of_marks (h : l.Marks file before inside after)
    (hline : LineAround before (inside ++ after) left right) (severity : Severity) :
    label ⟨false, some file⟩ severity l
      = quotation file l.message (before.count '\n' + 1) (byteLength left + 1) (left ++ right)
          (byteLength left + 1)
          (max 1 (min (byteLength inside) (left.length + right.length - byteLength left))) := by
  have hmarks : markCount (left ++ right).length (byteLength left + 1) l.span.length
      = max 1 (min (byteLength inside) (left.length + right.length - byteLength left)) := by
    rw [List.length_append, h.length_span, markCount]
    omega
  rw [label_of_lineOf h.primary (h.lineOf hline), hmarks]

/-- one mark for each character, exactly if no character of more than one byte stands before the
label, and none inside it unless the label reaches the end of the line -/
theorem marks_eq_iff (hinside : inside ≠ []) (hright : right ≠ []) :
    byteLength left + 1 = left.length + 1 ∧
        max 1 (min (byteLength inside) (left.length + right.length - byteLength left))
          = min inside.length right.length ↔
      (∀ c ∈ left, c.utf8Size = 1) ∧
        ((∀ c ∈ inside, c.utf8Size = 1) ∨ right.length ≤ inside.length) := by
  have hleft := length_le_byteLength left
  have hle := length_le_byteLength inside
  have hpos := List.length_pos_of_ne_nil hinside
  have hpos' := List.length_pos_of_ne_nil hright
  rw [← byteLength_eq_length_iff, ← byteLength_eq_length_iff]
  omega

end

/-- For every label over a part of a source, the line on which it starts is quoted.  Below it are one
blank and one more for each byte before the label, then a mark for each byte of the label, but no
more than the line has characters, less the bytes before the label.  So there is a blank for each
character before the label and a mark for each of its characters on the line exactly if all before
it is of one byte each, and all inside it too unless it reaches the end of the line. -/
theorem Renderer.label_underlines {l : Label} {file : Source} {before inside after : List Char}
    (h : l.Marks file before inside after) (severity : Severity) :
    (∃ left right, LineAround before (inside ++ after) left right) ∧
    ∀ left right, LineAround before (inside ++ after) left right →
      label ⟨false, some file⟩ severity l
        = quotation file l.message (before.count '\n' + 1) (byteLength left + 1) (left ++ right)
            (byteLength left + 1)
            (max 1 (min (byteLength inside) (left.length + right.length - byteLength left))) ∧
      (label ⟨false, some file⟩ severity l
          = quotation file l.message (before.count '\n' + 1) (byteLength left + 1) (left ++ right)
              (left.length + 1) (min inside.length right.length) ↔
        (∀ c ∈ left, c.utf8Size = 1) ∧
          ((∀ c ∈ inside, c.utf8Size = 1) ∨ right.length ≤ inside.length)) := by
  refine ⟨exists_lineAround before (inside ++ after), ?_⟩
  intro left right hline
  have hlabel := label_of_marks h hline severity
  refine ⟨hlabel, ?_⟩
  rw [hlabel, quotation_inj, marks_eq_iff h.nonempty (h.right_ne_nil hline)]

/-- a label over the rest of its line and the start of the next one -/
theorem Renderer.label_underlines_rest_of_line :
    label ⟨false, some ⟨"m", "x\n ab é\r\ny z"⟩⟩ .error ⟨⟨3, 11⟩, "here", true⟩
      = quotation ⟨"m", "x\n ab é\r\ny z"⟩ "here" 2 2 " ab é".toList 2 4 := by
  have hmarks : Label.Marks ⟨⟨3, 11⟩, "here", true⟩ ⟨"m", "x\n ab é\r\ny z"⟩ ['x', '\n', ' ']
      ['a', 'b', ' ', 'é', '\r', '\n', 'y'] [' ', 'z'] :=
    ⟨rfl, by decide, by decide, by decide, by simp [OnLineEnd]⟩
  have hline : LineAround ['x', '\n', ' '] ['a', 'b', ' ', 'é', '\r', '\n', 'y', ' ', 'z'] [' ']
      ['a', 'b', ' ', 'é'] :=
    ⟨⟨['x', '\n'], rfl, .newline ['x']⟩, ⟨_, rfl, .returnNewline ['y', ' ', 'z']⟩, by decide,
      by decide⟩
  have hleft : ∀ c ∈ [' '], c.utf8Size = 1 := List.forall_mem_singleton.mpr rfl
  exact ((label_underlines hmarks .error).2 _ _ hline).2.mpr ⟨hleft, .inr (by decide)⟩

/-- behind a character of two bytes the underline starts one character too late: it ends with the
label and the line, and so leaves out the first character of the label -/
theorem Renderer.label_underlines_late :
    Label.Marks ⟨⟨3, 8⟩, "not a number", true⟩ ⟨"m", "é 12abc"⟩ ['é', ' ']
        ['1', '2', 'a', 'b', 'c'] [] ∧
      LineAround ['é', ' '] ['1', '2', 'a', 'b', 'c'] ['é', ' '] ['1', '2', 'a', 'b', 'c'] ∧
      label ⟨false, some ⟨"m", "é 12abc"⟩⟩ .error ⟨⟨3, 8⟩, "not a number", true⟩
        = quotation ⟨"m", "é 12abc"⟩ "not a number" 1 4 "é 12abc".toList 4 4 ∧
      label ⟨false, some ⟨"m", "é 12abc"⟩⟩ .error ⟨⟨3, 8⟩, "not a number", true⟩
        ≠ quotation ⟨"m", "é 12abc"⟩ "not a number" 1 4 "é 12abc".toList 3 5 := by
  have hmarks : Label.Marks ⟨⟨3, 8⟩, "not a number", true⟩ ⟨"m", "é 12abc"⟩ ['é', ' ']
      ['1', '2', 'a', 'b', 'c'] [] :=
    ⟨rfl, by decide, by decide, by decide, by simp [OnLineEnd]⟩
  have hline : LineAround ['é', ' '] ['1', '2', 'a', 'b', 'c'] ['é', ' ']
      ['1', '2', 'a', 'b', 'c'] :=
    ⟨⟨[], rfl, .first⟩, ⟨[], rfl, .last⟩, by decide, by decide⟩
  have hlabel : label ⟨false, some ⟨"m", "é 12abc"⟩⟩ .error ⟨⟨3, 8⟩, "not a number", true⟩
      = quotation ⟨"m", "é 12abc"⟩ "not a number" 1 4 "é 12abc".toList 4 4 :=
    label_of_marks hmarks hline .error
  refine ⟨hmarks, hline, hlabel, ?_⟩
  rw [hlabel, Ne, quotation_inj]
  decide

end TraceFront
