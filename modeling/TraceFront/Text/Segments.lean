/-!
# Parts of a text between separators

* `segments`   the parts of a text, one more than there are separators in it.
-/

namespace TraceFront.Text

/-- the parts of a text between the occurrences of a character -/
def segments (sep : Char) : List Char → List (List Char)
  | [] => [[]]
  | c :: cs =>
    if c = sep then [] :: segments sep cs
    else
      match segments sep cs with
      | s :: ss => (c :: s) :: ss
      | [] => [[c]]

theorem length_segments (sep : Char) (cs : List Char) :
    (segments sep cs).length = cs.count sep + 1 := by
  induction cs with
  | nil => rfl
  | cons c cs ih =>
    by_cases h : c = sep
    · simp [segments, h, ih]
    · have hb : (c == sep) = false := by simpa using h
      simp only [segments, h, if_false, List.count_cons, hb]
      cases hs : segments sep cs with
      | nil => simp [hs] at ih
      | cons s ss => simpa [hs] using ih

end TraceFront.Text
