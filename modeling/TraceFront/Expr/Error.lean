import TraceFront.Diagnostic.Basic
import TraceFront.Vocabulary

/-!
# Errors of recognition

A datum is refused when it has the shape of no form, when a form has the wrong number of operands,
or when a name is not allowed where it stands.

* `SpecialForm.operands`   what may follow the word of a form;
* `FormError.message`      what is said about a datum that is not an expression or a pattern.
-/

namespace TraceFront

/-- terms that are never an expression, whatever they hold -/
inductive Shapeless where
  | vector
  | emptyList
deriving DecidableEq, Inhabited

def Shapeless.reason : Shapeless → String
  | vector => "a vector is only valid as a binding pattern; use `(tuple ...)`"
  | emptyList => "an application needs an operator"

/-- what may follow the word of a form -/
def SpecialForm.operands : SpecialForm → String
  | program => "a parameter pattern"
  | conditional => "2 or 3 operands"
  | define => "a pattern and a value"
  | withAddress => "a tag and an expression"
  | this => "no operands"
  | splice | unquote => "exactly one operand"
  | block | tuple => "any number of operands"

/-- why a datum is not an expression or a pattern -/
inductive FormError where
  | malformedExpression (term : String) (fault : Shapeless) (span : Span)
  | operandCount (form : SpecialForm) (found : Nat) (term : String) (span : Span)
  | malformedPattern (term : String) (span : Span)
  | reservedWord (name : String) (span : Span)
  | reservedSeparator (name : String) (span : Span)
  | wildcardValue (span : Span)
deriving DecidableEq

namespace FormError

def span : FormError → Span
  | malformedExpression _ _ s => s
  | operandCount _ _ _ s => s
  | malformedPattern _ s => s
  | reservedWord _ s => s
  | reservedSeparator _ s => s
  | wildcardValue s => s

def code : FormError → Code
  | malformedExpression _ _ _ => .malformedExpression
  | operandCount _ _ _ _ => .operandCount
  | malformedPattern _ _ => .malformedPattern
  | reservedWord _ _ => .reservedWord
  | reservedSeparator _ _ => .reservedSeparator
  | wildcardValue _ => .wildcardValue

def message : FormError → String
  | malformedExpression t f _ => "malformed expression `" ++ t ++ "`: " ++ f.reason
  | operandCount f n t _ =>
    "`" ++ f.word ++ "` expects " ++ f.operands ++ ", found " ++ n.repr ++ " in `" ++ t ++ "`"
  | malformedPattern t _ => "malformed binding pattern `" ++ t ++ "`"
  | reservedWord n _ => "reserved keyword `" ++ n ++ "` cannot be used as an identifier"
  | reservedSeparator n _ => "identifier `" ++ n ++ "` contains the reserved separator `|`"
  | wildcardValue _ => "the wildcard `_` cannot be used as a value"

def notes : FormError → List String
  | malformedPattern _ _ => ["a pattern is a name, `_`, or `[pattern ...]`"]
  | reservedSeparator _ _ => ["`|` is reserved for names synthesized from tuple patterns"]
  | wildcardValue _ => ["`_` is only valid as a binding pattern and is never bound"]
  | _ => []

def errorClass : FormError → ErrorClass
  | reservedWord _ _ | reservedSeparator _ _ | wildcardValue _ => .naming
  | _ => .structural

end FormError

end TraceFront
