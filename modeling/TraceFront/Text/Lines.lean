/-!
# Lines of a text

Lines end with a newline or with the text.  A carriage return directly before the newline belongs
to the line's end, one before the end of the text belongs to the line.

* `firstLine`      the line at the start of a text;
* `afterNewline`   what follows it;
* `lineAt`         the line with a given number, counted from zero, empty past the last one.
-/

namespace TraceFront.Text

/-- a text without the carriage return at its end, if there is one -/
def dropReturn (cs : List Char) : List Char :=
  if cs.getLast? = some '\r' then cs.dropLast else cs

/-- the first line: all up to the first newline, without a carriage return before that -/
def firstLine (cs : List Char) : List Char :=
  let line := cs.takeWhile (· != '\n')
  if (cs.dropWhile (· != '\n')).isEmpty then line else dropReturn line

def afterNewline (cs : List Char) : List Char := (cs.dropWhile (· != '\n')).tail

/-- the line with number `n`, counted from zero -/
def lineAt : Nat → List Char → List Char
  | 0, cs => firstLine cs
  | n + 1, cs => lineAt n (afterNewline cs)

@[simp] theorem lineAt_nil (n : Nat) : lineAt n [] = [] := by
  induction n with
  | zero => rfl
  | succ n ih => exact ih

end TraceFront.Text
