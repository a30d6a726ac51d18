/-!
# Byte lengths of text

Offsets into a source count the bytes of its UTF-8 form, while the text itself is handled as a
list of characters.

* `byteLength`         the bytes that a list of characters takes;
* `byteLength_append`  lengths of adjacent pieces add up.
-/

namespace TraceFront.Text

def byteLength : List Char → Nat
  | [] => 0
  | c :: cs => c.utf8Size + byteLength cs

@[simp] theorem byteLength_nil : byteLength [] = 0 := rfl

@[simp] theorem byteLength_cons (c : Char) (cs : List Char) :
    byteLength (c :: cs) = c.utf8Size + byteLength cs := rfl

@[simp] theorem byteLength_append (cs ds : List Char) :
    byteLength (cs ++ ds) = byteLength cs + byteLength ds := by
  induction cs with
  | nil => simp
  | cons c cs ih => simp [ih, Nat.add_assoc]

theorem byteLength_pos {cs : List Char} (h : cs ≠ []) : 0 < byteLength cs := by
  cases cs with
  | nil => exact absurd rfl h
  | cons c cs =>
    have := c.utf8Size_pos
    simp only [byteLength_cons]
    omega

def bytes (s : String) : List UInt8 := s.toUTF8.data.toList

end TraceFront.Text
