import TraceFront.Text.Quoted
import TraceFront.Number.Render

/-!
# Literals

A literal is an atomic constant.  The type of the texts in it is a parameter: a term of the
surface language holds them as strings, and a term that a session has taken in holds handles.

* `Literal.map`      another representation of the texts;
* `Literal.names`    the texts that a literal holds;
* `Literal.render`   the surface text of a literal.
-/

namespace TraceFront

open Number

/-- an atomic constant whose texts have type `ν` -/
inductive Literal (ν : Type) where
  | nil
  | bool (value : Bool)
  | int (value : Int64)
  | float (value : Binary64)
  | str (value : ν)
  | keyword (name : ν)
deriving DecidableEq, Inhabited

namespace Literal

variable {ν μ : Type}

def map (f : ν → μ) : Literal ν → Literal μ
  | nil => nil
  | bool b => bool b
  | int n => int n
  | float x => float x
  | str s => str (f s)
  | keyword k => keyword (f k)

/-- the text of the literal, if it has one -/
def names : Literal ν → List ν
  | str s => [s]
  | keyword k => [k]
  | _ => []

def boolText (b : Bool) : String := if b then "true" else "false"

def render : Literal String → String
  | nil => "nil"
  | bool b => boolText b
  | int n => renderInt64 n
  | float x => x.render
  | str s => Text.quoted s
  | keyword k => ":" ++ k

end Literal

end TraceFront
