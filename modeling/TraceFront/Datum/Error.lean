import TraceFront.Diagnostic.Basic
import TraceFront.Token.Basic

/-!
# Errors of the reader

* `ReadError.message`   what is said about tokens that do not make up datums.
-/

namespace TraceFront

/-- why tokens do not make up datums -/
inductive ReadError where
  | unclosed (shape : Delimiter) (span : Span)
  | unexpectedClose (shape : Delimiter) (span : Span)
  | danglingSigil (mark : Sigil) (span : Span)
deriving DecidableEq

namespace ReadError

def span : ReadError → Span
  | unclosed _ s => s
  | unexpectedClose _ s => s
  | danglingSigil _ s => s

def code : ReadError → Code
  | unclosed _ _ => .unclosedDelimiter
  | unexpectedClose _ _ => .unexpectedClose
  | danglingSigil _ _ => .danglingSigil

def message : ReadError → String
  | unclosed d _ => "unclosed `" ++ d.opening.toString ++ "`"
  | unexpectedClose d _ => "unexpected `" ++ d.closing.toString ++ "`"
  | danglingSigil m _ => "`" ++ m.text ++ "` is not followed by a term"

end ReadError

end TraceFront
