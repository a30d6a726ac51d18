import TraceFront.Span
import TraceFront.Vocabulary
import TraceFront.Literal

/-!
# Tokens

The words of the surface language: delimiters, the two sigils, and atoms.  An atom is a string, a
number, a keyword or a symbol; whether a symbol means a truth value or a form is decided later.

* `Delimiter`       round and square brackets;
* `TokenKind`       what a token is, with the value of an atom;
* `Token`           a token and where it stands.
-/

namespace TraceFront

open Number

inductive Delimiter where
  | round
  | square
deriving DecidableEq, Inhabited

namespace Delimiter

def opening : Delimiter → Char
  | round => '('
  | square => '['

def closing : Delimiter → Char
  | round => ')'
  | square => ']'

end Delimiter

inductive TokenKind where
  | opening (shape : Delimiter)
  | closing (shape : Delimiter)
  | sigil (mark : Sigil)
  | str (value : String)
  | int (value : Int64)
  | float (value : Binary64)
  | keyword (name : String)
  | symbol (name : String)
deriving DecidableEq, Inhabited

namespace TokenKind

def isClosing : TokenKind → Bool
  | closing _ => true
  | _ => false

def render : TokenKind → String
  | opening d => d.opening.toString
  | closing d => d.closing.toString
  | sigil m => m.text
  | str s => Text.quoted s
  | int n => renderInt64 n
  | float x => x.render
  | keyword k => ":" ++ k
  | symbol s => s

end TokenKind

structure Token where
  kind : TokenKind
  span : Span
deriving DecidableEq, Inhabited

end TraceFront
