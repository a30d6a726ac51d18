import TraceFront.Text.Printable
import TraceFront.Text.Combining

/-!
# Quoted text

A text is shown between double quotes.  Six characters have a short escape; a character that is
unprintable or combining is shown as its code point in hexadecimal; every other character stands
for itself.

* `shortEscape?`  the letter after the backslash, for the six characters that have one;
* `needsCode`     the character is shown by its code point;
* `escape`        the characters that show one character;
* `quoted`        the whole text with its quotes.
-/

namespace TraceFront.Text

/-- the character that follows the backslash in the short escape of `c` -/
def shortEscape? (c : Char) : Option Char :=
  if c = '\x00' then some '0'
  else if c = '\t' then some 't'
  else if c = '\r' then some 'r'
  else if c = '\n' then some 'n'
  else if c = '\\' then some '\\'
  else if c = '"' then some '"'
  else none

/-- `c` has no short escape and no glyph that can stand on its own -/
def needsCode (c : Char) : Bool :=
  (shortEscape? c).isNone && (isCombining c || !isPrintable c)

/-- the code point of `c` in lower-case hexadecimal, without leading zeros -/
def hexCode (c : Char) : List Char := Nat.toDigits 16 c.toNat

def escape (c : Char) : List Char :=
  match shortEscape? c with
  | some e => ['\\', e]
  | none =>
    if needsCode c then '\\' :: 'u' :: '\x7b' :: hexCode c ++ ['\x7d']
    else [c]

def quoted (s : String) : String :=
  String.ofList ('"' :: s.toList.flatMap escape ++ ['"'])

theorem toList_quoted (s : String) :
    (quoted s).toList = '"' :: s.toList.flatMap escape ++ ['"'] := by
  simp [quoted]

theorem escape_of_plain {c : Char} (hs : shortEscape? c = none) (hc : needsCode c = false) :
    escape c = [c] := by
  simp [escape, hs, hc]

end TraceFront.Text
