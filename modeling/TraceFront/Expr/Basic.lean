import TraceFront.Span
import TraceFront.Literal
import TraceFront.Pattern

/-!
# Expressions

The surface language after its forms have been recognized, each expression with its place.  The
type of names is a parameter, as for literals.

* `Expr.span`        where the expression stands;
* `Expr.isProgram`   the expression is a function literal;
* `Expr.map`         another representation of the names;
* `Expr.render`      the surface text of an expression.
-/

namespace TraceFront

inductive Expr (ν : Type) where
  /-- a function of one argument, which is matched with `pattern` -/
  | program (pattern : Pattern ν) (body : List (Expr ν)) (span : Span)
  /-- a choice with nothing for the case that the predicate fails -/
  | ifThen (predicate consequent : Expr ν) (span : Span)
  | ifThenElse (predicate consequent alternative : Expr ν) (span : Span)
  /-- statements one after the other -/
  | block (statements : List (Expr ν)) (span : Span)
  /-- a definition for the statements after it -/
  | define (pattern : Pattern ν) (value : Expr ν) (span : Span)
  /-- an expression under a tag of its own in the trace -/
  | withAddress (tag inner : Expr ν) (span : Span)
  | tuple (items : List (Expr ν)) (span : Span)
  | apply (function : Expr ν) (arguments : List (Expr ν)) (span : Span)
  | literal (value : Literal ν) (span : Span)
  | var (name : ν) (span : Span)
  /-- the enclosing procedure -/
  | this (span : Span)
  | splice (inner : Expr ν) (span : Span)
  | unquote (inner : Expr ν) (span : Span)
deriving Inhabited

namespace Expr

variable {ν μ : Type}

def span : Expr ν → Span
  | program _ _ s => s
  | ifThen _ _ s => s
  | ifThenElse _ _ _ s => s
  | block _ s => s
  | define _ _ s => s
  | withAddress _ _ s => s
  | tuple _ s => s
  | apply _ _ s => s
  | literal _ s => s
  | var _ s => s
  | this s => s
  | splice _ s => s
  | unquote _ s => s

def isProgram : Expr ν → Bool
  | program _ _ _ => true
  | _ => false

mutual

def map (f : ν → μ) : Expr ν → Expr μ
  | program p body s => program (p.map f) (mapAll f body) s
  | ifThen p t s => ifThen (p.map f) (t.map f) s
  | ifThenElse p t e s => ifThenElse (p.map f) (t.map f) (e.map f) s
  | block stmts s => block (mapAll f stmts) s
  | define p v s => define (p.map f) (v.map f) s
  | withAddress t e s => withAddress (t.map f) (e.map f) s
  | tuple es s => tuple (mapAll f es) s
  | apply g args s => apply (g.map f) (mapAll f args) s
  | literal l s => literal (l.map f) s
  | var n s => var (f n) s
  | this s => this s
  | splice e s => splice (e.map f) s
  | unquote e s => unquote (e.map f) s

def mapAll (f : ν → μ) : List (Expr ν) → List (Expr μ)
  | [] => []
  | e :: es => e.map f :: mapAll f es

end

@[simp] theorem isProgram_map (f : ν → μ) (e : Expr ν) : (e.map f).isProgram = e.isProgram := by
  cases e <;> rfl

theorem mapAll_eq_map (f : ν → μ) (es : List (Expr ν)) : mapAll f es = es.map (Expr.map f) := by
  induction es with
  | nil => rfl
  | cons e es ih => simp [mapAll, ih]

def renderForm (form : SpecialForm) (parts : List String) : String :=
  Text.parenthesized (form.word :: parts)

mutual

def render : Expr String → String
  | program p body _ => renderForm .program (p.render :: renderAll body)
  | ifThen p t _ => renderForm .conditional [p.render, t.render]
  | ifThenElse p t e _ => renderForm .conditional [p.render, t.render, e.render]
  | block stmts _ => renderForm .block (renderAll stmts)
  | define p v _ => renderForm .define [p.render, v.render]
  | withAddress t e _ => renderForm .withAddress [t.render, e.render]
  | tuple es _ => renderForm .tuple (renderAll es)
  | apply f args _ => Text.parenthesized (f.render :: renderAll args)
  | literal l _ => l.render
  | var n _ => n
  | this _ => Vocabulary.selfReference
  | splice e _ => renderForm .splice [e.render]
  | unquote e _ => renderForm .unquote [e.render]

def renderAll : List (Expr String) → List String
  | [] => []
  | e :: es => e.render :: renderAll es

end

theorem renderAll_eq_map (es : List (Expr String)) : renderAll es = es.map render := by
  induction es with
  | nil => rfl
  | cons e es ih => simp [renderAll, ih]

end Expr

end TraceFront
