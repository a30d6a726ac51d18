import TraceFront.Literal

/-!
# Values in a tree

The terminal values of a tree are the literals of the surface language and the symbols that stand
under variables.

* `Value.render`   the text of a value.
-/

namespace TraceFront

inductive Value where
  | constant (literal : Literal String)
  | symbol (name : String)
deriving DecidableEq, Inhabited

namespace Value

def render : Value → String
  | constant l => l.render
  | symbol n => n

def isSymbol : Value → Bool
  | symbol _ => true
  | constant _ => false

end Value

end TraceFront
