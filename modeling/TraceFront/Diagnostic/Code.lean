/-!
# Diagnostic codes

Each kind of finding has a code of one letter and four digits.  The first digit tells the stage
that reports it.

* `Stage`         the stages that report findings, and `ErrorClass` the classes of errors;
* `Code`          the findings;
* `Code.text`     the written code, and `Code.read?` its reader, which ignores case;
* `Code.stage`    the stage of a finding.
-/

namespace TraceFront

inductive Stage where
  | reader
  | structural
  | naming
  | style
  | internal
deriving DecidableEq, Inhabited

/-- the name of a stage in an explanation -/
def Stage.title : Stage → String
  | .reader => "reader"
  | .structural => "structural"
  | .naming => "naming"
  | .style => "style warning"
  | .internal => "internal"

/-- the kinds of fault that an error can be about -/
inductive ErrorClass where
  | structural
  | naming
  | invariant
deriving DecidableEq, Inhabited

inductive Code where
  | unterminatedString
  | invalidEscape
  | invalidNumber
  | unclosedDelimiter
  | unexpectedClose
  | danglingSigil
  | malformedExpression
  | operandCount
  | malformedPattern
  | reservedWord
  | reservedSeparator
  | fieldCollision
  | wildcardValue
  | trailingDefinition
  | rejectedNode
deriving DecidableEq, Inhabited

namespace Code

def text : Code → String
  | unterminatedString => "E0001"
  | invalidEscape => "E0002"
  | invalidNumber => "E0003"
  | unclosedDelimiter => "E0004"
  | unexpectedClose => "E0005"
  | danglingSigil => "E0006"
  | malformedExpression => "E1001"
  | operandCount => "E1002"
  | malformedPattern => "E1003"
  | reservedWord => "E2001"
  | reservedSeparator => "E2002"
  | fieldCollision => "E2003"
  | wildcardValue => "E2004"
  | trailingDefinition => "W3001"
  | rejectedNode => "E9001"

def description : Code → String
  | unterminatedString => "unterminated string literal"
  | invalidEscape => "invalid escape sequence in string literal"
  | invalidNumber => "invalid number literal"
  | unclosedDelimiter => "unclosed delimiter"
  | unexpectedClose => "unexpected closing delimiter"
  | danglingSigil => "reader prefix is not followed by a term"
  | malformedExpression => "expression does not match any form"
  | operandCount => "form has the wrong number of operands"
  | malformedPattern => "malformed binding pattern"
  | reservedWord => "reserved keyword used as an identifier"
  | reservedSeparator => "identifier contains the reserved separator `|`"
  | fieldCollision => "definition name collides with the `pattern` field"
  | wildcardValue => "wildcard `_` used as a value"
  | trailingDefinition => "definition is the last statement of a block"
  | rejectedNode => "internal error: emitted node is not a valid trie node"

def stage : Code → Stage
  | unterminatedString | invalidEscape | invalidNumber => .reader
  | unclosedDelimiter | unexpectedClose | danglingSigil => .reader
  | malformedExpression | operandCount | malformedPattern => .structural
  | reservedWord | reservedSeparator | fieldCollision | wildcardValue => .naming
  | trailingDefinition => .style
  | rejectedNode => .internal

def all : List Code :=
  [unterminatedString, invalidEscape, invalidNumber, unclosedDelimiter, unexpectedClose,
   danglingSigil, malformedExpression, operandCount, malformedPattern, reservedWord,
   reservedSeparator, fieldCollision, wildcardValue, trailingDefinition, rejectedNode]

/-- the code that a text spells, in upper or lower case -/
def read? (s : String) : Option Code :=
  all.find? fun c => c.text == s.map Char.toUpper

def unknownMessage (s : String) : String := "unknown error code `" ++ s ++ "`"

theorem mem_all (c : Code) : c ∈ all := by cases c <;> decide

end Code

end TraceFront
