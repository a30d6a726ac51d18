import TraceFront.Token.Basic
import TraceFront.Token.Error

/-!
# The lexer

A source is read from left to right.  Blanks, commas and comments separate tokens and are skipped;
a comment runs from a semicolon to the end of its line.  A token is a bracket, a sigil, a string in
double quotes, or an atom: the longest run of characters that are not delimiters.  Spans count bytes
from the start of the source.

* `Cursor`          the rest of the source and the offset where it starts;
* `skipBlanks`      the cursor at the next token;
* `stringBody`      a string from after its opening quote;
* `classify`        what an atom is, by its text;
* `nextToken`       one token, and `nextToken_shorter`, which says that it takes some characters;
* `lexFrom`, `lex`  all tokens, up to the first error.
-/

namespace TraceFront

open Number Text

/-! ## character classes -/

/-- a character that only separates tokens -/
def isBlank (c : Char) : Bool :=
  c == ' ' || c == '\t' || c == '\n' || c == '\r' || c == ','

def endsAtom (c : Char) : Bool :=
  isBlank c || c == '(' || c == ')' || c == '[' || c == ']' || c == '"' || c == ';'

def isAtomChar (c : Char) : Bool := !endsAtom c

/-- the atom is meant as a number: a digit, or a sign and a digit, comes first -/
def startsNumber : List Char → Bool
  | [] => false
  | [c] => c.isDigit
  | c :: d :: _ => c.isDigit || ((c == '+' || c == '-') && d.isDigit)

/-! ## positions -/

/-- the rest of a source and the byte offset at which it starts -/
structure Cursor where
  offset : Nat
  rest : List Char
deriving DecidableEq

/-- the cursor at the next character of a token; `comment` tells that it stands inside a
comment -/
def skipBlanks (comment : Bool) (offset : Nat) : List Char → Cursor
  | [] => ⟨offset, []⟩
  | c :: cs =>
    if comment then skipBlanks (c != '\n') (offset + c.utf8Size) cs
    else if isBlank c then skipBlanks false (offset + c.utf8Size) cs
    else if c = ';' then skipBlanks true (offset + c.utf8Size) cs
    else ⟨offset, c :: cs⟩

/-! ## strings -/

def unescape? (c : Char) : Option Char :=
  if c = 'n' then some '\n'
  else if c = 't' then some '\t'
  else if c = 'r' then some '\r'
  else if c = '0' then some '\x00'
  else if c = '\\' then some '\\'
  else if c = '"' then some '"'
  else none

/-- a string from `offset` on, where `start` is the offset of its opening quote and `read` holds
the characters read so far, last first: its value and the cursor after the closing quote -/
def stringBody (start offset : Nat) (read : List Char) :
    List Char → Except LexError (String × Cursor)
  | [] => .error (.unterminatedString (.ofRange start offset))
  | c :: cs =>
    if c = '"' then .ok (String.ofList read.reverse, ⟨offset + 1, cs⟩)
    else if c = '\\' then
      match cs with
      | [] => .error (.unterminatedString (.ofRange start (offset + 1)))
      | e :: cs =>
        match unescape? e with
        | some d => stringBody start (offset + 1 + e.utf8Size) (d :: read) cs
        | none => .error (.invalidEscape e (.ofRange offset (offset + 1 + e.utf8Size)))
    else stringBody start (offset + c.utf8Size) (c :: read) cs

/-! ## atoms -/

/-- the number that an atom spells: an integer of 64 bits, or else a decimal fraction if the atom
has a point or an exponent mark -/
def readNumber? (text : List Char) : Option TokenKind :=
  match readInt64? text with
  | some n => some (.int n)
  | none =>
    if text.any fun c => c == '.' || c == 'e' || c == 'E' then
      (Decimal.read? text).map fun x => .float (.ofDecimal x)
    else none

/-- what an atom is: a number, a keyword if a colon and some more text make it up, or a symbol -/
def classify (text : List Char) (span : Span) : Except LexError TokenKind :=
  if startsNumber text then
    match readNumber? text with
    | some kind => .ok kind
    | none => .error (.invalidNumber (String.ofList text) span)
  else
    match text with
    | c :: d :: cs =>
      if c = ':' then .ok (.keyword (String.ofList (d :: cs)))
      else .ok (.symbol (String.ofList text))
    | _ => .ok (.symbol (String.ofList text))

/-! ## tokens -/

/-- a token of a fixed spelling of `width` bytes, and the cursor behind it -/
def markToken (offset : Nat) (kind : TokenKind) (width : Nat) (rest : List Char) : Token × Cursor :=
  (⟨kind, .ofRange offset (offset + width)⟩, ⟨offset + width, rest⟩)

/-- a string token whose opening quote is at `offset`, with `cs` after the quote -/
def stringToken (offset : Nat) (cs : List Char) : Except LexError (Token × Cursor) :=
  match stringBody offset (offset + 1) [] cs with
  | .ok (value, after) => .ok (⟨.str value, .ofRange offset after.offset⟩, after)
  | .error e => .error e

def atomToken (offset : Nat) (cs : List Char) : Except LexError (Token × Cursor) :=
  let text := cs.takeWhile isAtomChar
  let after := offset + byteLength text
  match classify text (.ofRange offset after) with
  | .ok kind => .ok (⟨kind, .ofRange offset after⟩, ⟨after, cs.dropWhile isAtomChar⟩)
  | .error e => .error e

/-- the token that starts at `offset` with the character `c`, with `cs` after it, and the cursor
behind the token -/
def tokenAt (offset : Nat) (c : Char) (cs : List Char) : Except LexError (Token × Cursor) :=
  if c = '(' then .ok (markToken offset (.opening .round) 1 cs)
  else if c = ')' then .ok (markToken offset (.closing .round) 1 cs)
  else if c = '[' then .ok (markToken offset (.opening .square) 1 cs)
  else if c = ']' then .ok (markToken offset (.closing .square) 1 cs)
  else if c = '~' then
    if cs.head? = some '@' then .ok (markToken offset (.sigil .splice) 2 cs.tail)
    else .ok (markToken offset (.sigil .unquote) 1 cs)
  else if c = '"' then stringToken offset cs
  else atomToken offset (c :: cs)

/-- the next token and the cursor behind it, or nothing at the end of the source -/
def nextToken (p : Cursor) : Option (Except LexError (Token × Cursor)) :=
  match skipBlanks false p.offset p.rest with
  | ⟨_, []⟩ => none
  | ⟨offset, c :: cs⟩ => some (tokenAt offset c cs)

theorem skipBlanks_length_le (comment : Bool) (offset : Nat) (cs : List Char) :
    (skipBlanks comment offset cs).rest.length ≤ cs.length := by
  induction cs generalizing comment offset with
  | nil => simp [skipBlanks]
  | cons c cs ih =>
    unfold skipBlanks
    split
    · exact Nat.le_succ_of_le (ih ..)
    · split
      · exact Nat.le_succ_of_le (ih ..)
      · split
        · exact Nat.le_succ_of_le (ih ..)
        · exact Nat.le_refl _

theorem stringBody_length_le {start offset : Nat} {read cs : List Char} {s : String} {p : Cursor}
    (h : stringBody start offset read cs = .ok (s, p)) : p.rest.length ≤ cs.length := by
  fun_induction stringBody start offset read cs with
  | case1 => cases h
  | case2 => cases h; simp
  | case3 => cases h
  | case4 _ _ _ _ _ _ _ ih => have := ih h; simp; omega
  | case5 => cases h
  | case6 _ _ _ _ _ _ ih => have := ih h; simp; omega

theorem stringToken_length_le {offset : Nat} {cs : List Char} {t : Token} {p : Cursor}
    (h : stringToken offset cs = .ok (t, p)) : p.rest.length ≤ cs.length := by
  unfold stringToken at h
  split at h
  · rename_i hb
    cases h
    exact stringBody_length_le hb
  · cases h

theorem atomToken_length_le {offset : Nat} {c : Char} {cs : List Char} {t : Token} {p : Cursor}
    (hc : isAtomChar c = true) (h : atomToken offset (c :: cs) = .ok (t, p)) :
    p.rest.length ≤ cs.length := by
  simp only [atomToken] at h
  split at h
  · cases h
    simp only [List.dropWhile_cons, hc, if_true]
    exact (List.dropWhile_sublist isAtomChar).length_le
  · cases h

theorem tokenAt_length_le {offset : Nat} {c : Char} {cs : List Char} {t : Token} {p : Cursor}
    (hb : isBlank c = false) (hs : c ≠ ';') (h : tokenAt offset c cs = .ok (t, p)) :
    p.rest.length ≤ cs.length := by
  unfold tokenAt at h
  iterate 4
    split at h
    · cases h; exact Nat.le_refl _
  split at h
  · split at h
    · cases h; simp
    · cases h; exact Nat.le_refl _
  split at h
  · exact stringToken_length_le h
  · refine atomToken_length_le ?_ h
    simp_all [isAtomChar, endsAtom]

theorem skipBlanks_stop {comment : Bool} {offset offset' : Nat} {cs ds : List Char} {c : Char}
    (h : skipBlanks comment offset cs = ⟨offset', c :: ds⟩) : isBlank c = false ∧ c ≠ ';' := by
  induction cs generalizing comment offset with
  | nil => simp [skipBlanks] at h
  | cons d cs ih =>
    unfold skipBlanks at h
    split at h
    · exact ih h
    · split at h
      · exact ih h
      · split at h
        · exact ih h
        · cases h
          simp_all

/-- a token takes at least one character -/
theorem nextToken_shorter {p q : Cursor} {t : Token} (h : nextToken p = some (.ok (t, q))) :
    q.rest.length < p.rest.length := by
  unfold nextToken at h
  have hle := skipBlanks_length_le false p.offset p.rest
  split at h
  · cases h
  · rename_i offset c cs heq
    rw [heq] at hle
    obtain ⟨hb, hs⟩ := skipBlanks_stop heq
    have := tokenAt_length_le hb hs (Option.some.inj h)
    simp only [List.length_cons] at hle
    omega

/-- the tokens from a position on, up to the first error -/
def lexFrom (p : Cursor) : Except LexError (List Token) :=
  match _h : nextToken p with
  | none => .ok []
  | some (.error e) => .error e
  | some (.ok (t, q)) =>
    match lexFrom q with
    | .ok ts => .ok (t :: ts)
    | .error e => .error e
termination_by p.rest.length
decreasing_by exact nextToken_shorter _h

def lex (source : String) : Except LexError (List Token) := lexFrom ⟨0, source.toList⟩

end TraceFront
