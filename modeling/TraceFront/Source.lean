import TraceFront.Datum.Reader
import TraceFront.Expr.OfDatum
import TraceFront.Token.Lexer

/-!
# What a source holds

A source is cut into tokens, the tokens are read as datums, and the datums are recognized as
expressions.  Each of the three steps can refuse it.

* `SourceError`   the error of any step, with its message, code, class and diagnostic;
* `read`          the datums of a source;
* `parse`         the expressions of a source.
-/

namespace TraceFront

/-- why a source is no list of expressions -/
inductive SourceError where
  | lex (error : LexError)
  | read (error : ReadError)
  | form (error : FormError)
deriving DecidableEq

namespace SourceError

def span : SourceError → Span
  | lex e => e.span
  | read e => e.span
  | form e => e.span

def code : SourceError → Code
  | lex e => e.code
  | read e => e.code
  | form e => e.code

def message : SourceError → String
  | lex e => e.message
  | read e => e.message
  | form e => e.message

def errorClass : SourceError → ErrorClass
  | form e => e.errorClass
  | _ => .structural

def diagnostic : SourceError → Diagnostic
  | lex e => e.diagnostic
  | read e => .ofError e.code e.message e.span e.code.description []
  | form e => .ofError e.code e.message e.span e.code.description e.notes

end SourceError

def read (source : String) : Except SourceError (List (Datum String)) :=
  match lex source with
  | .error e => .error (.lex e)
  | .ok ts => (readTokens ts).mapError .read

def parse (source : String) : Except SourceError (List (Expr String)) :=
  match read source with
  | .error e => .error e
  | .ok ds => (Expr.ofDatums ds).mapError .form

theorem parse_of_read {source : String} {ds : List (Datum String)} {es : List (Expr String)}
    (hread : read source = .ok ds) (hrecognized : Expr.ofDatums ds = .ok es) :
    parse source = .ok es := by
  rw [parse, hread]
  show (Expr.ofDatums ds).mapError SourceError.form = .ok es
  rw [hrecognized]
  rfl

end TraceFront
