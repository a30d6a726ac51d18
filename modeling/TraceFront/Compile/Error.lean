import TraceFront.Source
import TraceFront.Tree.OfExpr

/-!
# Errors of compilation

A source fails to compile because it is no list of expressions, or because one of its expressions
has no tree.

* `CompileError`   either of the two, with its message, code, class and diagnostic.
-/

namespace TraceFront

def TreeError.errorClass : TreeError → ErrorClass
  | fieldCollision _ _ => .naming
  | rejectedNode _ _ _ _ => .invariant

/-- why a source does not compile -/
inductive CompileError where
  | source (error : SourceError)
  | tree (error : TreeError)
deriving DecidableEq

namespace CompileError

def span : CompileError → Span
  | source e => e.span
  | tree e => e.span

def code : CompileError → Code
  | source e => e.code
  | tree e => e.code

def message : CompileError → String
  | source e => e.message
  | tree e => e.message

def errorClass : CompileError → ErrorClass
  | source e => e.errorClass
  | tree e => e.errorClass

def diagnostic : CompileError → Diagnostic
  | source e => e.diagnostic
  | tree e => e.diagnostic

end CompileError

end TraceFront
