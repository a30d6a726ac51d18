import TraceFront.Diagnostic.Basic

/-!
# Errors of the lexer

Three things can go wrong when a source is cut into tokens.

* `LexError.message`      what is said about each;
* `LexError.diagnostic`   the diagnostic that reports it.
-/

namespace TraceFront

/-- whether a phase has a given outcome can be decided -/
instance decEqOutcome {ε α : Type} [DecidableEq ε] [DecidableEq α] : DecidableEq (Except ε α)
  | .error e, .error f => decidable_of_decidable_of_iff (p := e = f) (by simp)
  | .ok a, .ok b => decidable_of_decidable_of_iff (p := a = b) (by simp)
  | .error _, .ok _ | .ok _, .error _ => .isFalse nofun

/-- why a source could not be cut into tokens -/
inductive LexError where
  | unterminatedString (span : Span)
  | invalidEscape (escape : Char) (span : Span)
  | invalidNumber (text : String) (span : Span)
deriving DecidableEq

namespace LexError

def span : LexError → Span
  | unterminatedString s => s
  | invalidEscape _ s => s
  | invalidNumber _ s => s

def code : LexError → Code
  | unterminatedString _ => .unterminatedString
  | invalidEscape _ _ => .invalidEscape
  | invalidNumber _ _ => .invalidNumber

def message : LexError → String
  | unterminatedString _ => "unterminated string literal"
  | invalidEscape c _ => "invalid escape sequence `\\" ++ c.toString ++ "`"
  | invalidNumber t _ => "invalid number literal `" ++ t ++ "`"

def label : LexError → String
  | unterminatedString _ => "string starts here"
  | invalidEscape _ _ => "unknown escape"
  | invalidNumber _ _ => "not a number"

def notes : LexError → List String
  | invalidEscape _ _ => ["valid escapes are \\n, \\t, \\r, \\0, \\\\ and \\\""]
  | _ => []

def diagnostic (e : LexError) : Diagnostic :=
  .ofError e.code e.message e.span e.label e.notes

end LexError

end TraceFront
