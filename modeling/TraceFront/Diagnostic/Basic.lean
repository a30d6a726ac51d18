import TraceFront.Span
import TraceFront.Diagnostic.Code

/-!
# Diagnostics

A diagnostic is a code with a severity, a message, labelled places in the source, and notes.

* `Diagnostic.ofError`, `Diagnostic.ofWarning`   one with a single primary label;
* `Diagnostic.heading`                           severity, code and message in one line;
* `Diagnostic.primarySpan?`                      the first primary place.
-/

namespace TraceFront

inductive Severity where
  | error
  | warning
  | note
deriving DecidableEq, Inhabited

def Severity.text : Severity → String
  | .error => "error"
  | .warning => "warning"
  | .note => "note"

/-- a place in the source with what there is to say about it -/
structure Label where
  span : Span
  message : String
  /-- the place where the finding is, and not only its context -/
  primary : Bool
deriving DecidableEq

/-- a finding, ready to be shown -/
structure Diagnostic where
  code : Code
  severity : Severity
  message : String
  labels : List Label
  notes : List String
deriving DecidableEq

namespace Diagnostic

def ofError (code : Code) (message : String) (span : Span) (label : String)
    (notes : List String) : Diagnostic :=
  ⟨code, .error, message, [⟨span, label, true⟩], notes⟩

def ofWarning (code : Code) (message : String) (span : Span) (label : String)
    (notes : List String) : Diagnostic :=
  ⟨code, .warning, message, [⟨span, label, true⟩], notes⟩

def tag (d : Diagnostic) : String := d.severity.text ++ "[" ++ d.code.text ++ "]"

def heading (d : Diagnostic) : String := d.tag ++ ": " ++ d.message

def isError (d : Diagnostic) : Bool := d.severity = .error

def primarySpan? (d : Diagnostic) : Option Span := (d.labels.find? (·.primary)).map (·.span)

end Diagnostic

end TraceFront
