import TraceFront.Datum.Basic
import TraceFront.Expr.Basic
import TraceFront.Expr.Error

/-!
# Recognition of forms

A list whose head is the word of a form is that form; every other list with at least one element is
an application.  Operands are recognized from left to right, and the first fault wins.

Names may be texts or handles for texts.  Recognition compares them with the names that have a meaning
of their own, and looks at their texts only to refuse them and to show them.

* `Lexicon`                what recognition must know of a type of names;
* `reference`, `newName`   names in the position of a value and of a pattern;
* `Pattern.ofDatum`        the pattern that a datum spells;
* `Expr.ofDatum`           the expression that a datum spells.
-/

namespace TraceFront

/-- what recognition must know of a type of names -/
class Lexicon (ν : Type) where
  /-- the form that a name introduces -/
  form? : ν → Option SpecialForm
  wildcard : ν
  selfReference : ν
  text : ν → String
  /-- a term with texts for its names -/
  spell : Datum ν → Datum String

instance : Lexicon String where
  form? := SpecialForm.ofWord?
  wildcard := Vocabulary.wildcard
  selfReference := Vocabulary.selfReference
  text s := s
  spell d := d

section
variable {ν : Type} [DecidableEq ν] [Lexicon ν]

/-- a name that refers to a value: not the wildcard, not the word of a form, and without the
separator -/
def reference (name : ν) (span : Span) : Except FormError ν :=
  if name = Lexicon.wildcard then .error (.wildcardValue span)
  else if Vocabulary.isReserved (Lexicon.text name) then
    .error (.reservedWord (Lexicon.text name) span)
  else if (Lexicon.text name).toList.contains Vocabulary.separator then
    .error (.reservedSeparator (Lexicon.text name) span)
  else .ok name

/-- a name that is bound: an identifier other than the name of the enclosing procedure -/
def newName (name : ν) (span : Span) : Except FormError ν :=
  if name = Lexicon.selfReference then .error (.reservedWord Vocabulary.selfReference span)
  else reference name span

end

/-- the tests on a name that is a text -/
theorem reference_text (name : String) (span : Span) : reference name span =
    if name = Vocabulary.wildcard then .error (.wildcardValue span)
    else if Vocabulary.isReserved name then .error (.reservedWord name span)
    else if name.toList.contains Vocabulary.separator then .error (.reservedSeparator name span)
    else .ok name := rfl

theorem spell_text (d : Datum String) : Lexicon.spell d = d := rfl

theorem newName_text (name : String) (span : Span) : newName name span =
    if name = Vocabulary.selfReference then .error (.reservedWord Vocabulary.selfReference span)
    else reference name span := rfl

namespace Datum

variable {ν : Type} [Lexicon ν]

/-- the form that a datum introduces when it is the head of a list -/
def form? (d : Datum ν) : Option SpecialForm := d.symbol?.bind Lexicon.form?

/-- the error of a datum that is no pattern -/
def notPattern (d : Datum ν) : FormError := .malformedPattern (Lexicon.spell d).render d.span

/-- the error of a list that is a form with `found` operands, a number that the form does not
take -/
def wrongCount (d : Datum ν) (form : SpecialForm) (found : Nat) : FormError :=
  .operandCount form found (Lexicon.spell d).render d.span

end Datum

namespace Pattern

variable {ν : Type} [DecidableEq ν] [Lexicon ν]

mutual

/-- the pattern that a datum spells: a name, the wildcard, a vector of patterns, or a tuple form -/
def ofDatum : Datum ν → Except FormError (Pattern ν)
  | .symbol n s => if n = Lexicon.wildcard then .ok .wildcard else (newName n s).map .name
  | .vector ds _ => (ofDatums ds).map .tuple
  | .list (d :: ds) s =>
    if d.form? = some .tuple then (ofDatums ds).map .tuple
    else .error (Datum.list (d :: ds) s).notPattern
  | .list [] s => .error (Datum.list [] s : Datum ν).notPattern
  | .literal l s => .error (Datum.literal l s).notPattern

def ofDatums : List (Datum ν) → Except FormError (List (Pattern ν))
  | [] => .ok []
  | d :: ds => do
    let p ← ofDatum d
    let ps ← ofDatums ds
    return p :: ps

end

theorem ofDatum_symbol (n : String) (s : Span) : ofDatum (.symbol n s) =
    if n = Vocabulary.wildcard then .ok .wildcard else (newName n s).map .name := by
  rw [ofDatum]
  rfl

end Pattern

namespace Expr

variable {ν : Type} [DecidableEq ν] [Lexicon ν]

mutual

def ofDatum : Datum ν → Except FormError (Expr ν)
  | .literal l s => .ok (.literal l s)
  | .symbol n s =>
    if n = Lexicon.selfReference then .ok (.this s) else (reference n s).map (.var · s)
  | .vector ds s => .error (.malformedExpression (Lexicon.spell (.vector ds s)).render .vector s)
  | .list [] s =>
    .error (.malformedExpression (Lexicon.spell (Datum.list [] s : Datum ν)).render .emptyList s)
  | .list (head :: operands) s =>
    let refuse (form : SpecialForm) : Except FormError (Expr ν) :=
      .error ((Datum.list (head :: operands) s).wrongCount form operands.length)
    match head.form? with
    | none => do
      let f ← ofDatum head
      let args ← ofDatums operands
      return .apply f args s
    | some .program =>
      match operands with
      | [] => refuse .program
      | p :: body => do
        let p ← Pattern.ofDatum p
        let body ← ofDatums body
        return .program p body s
    | some .conditional =>
      match operands with
      | [p, t] => do
        let p ← ofDatum p
        let t ← ofDatum t
        return .ifThen p t s
      | [p, t, e] => do
        let p ← ofDatum p
        let t ← ofDatum t
        let e ← ofDatum e
        return .ifThenElse p t e s
      | _ => refuse .conditional
    | some .block => do
      let stmts ← ofDatums operands
      return .block stmts s
    | some .define =>
      match operands with
      | [p, v] => do
        let p ← Pattern.ofDatum p
        let v ← ofDatum v
        return .define p v s
      | _ => refuse .define
    | some .withAddress =>
      match operands with
      | [t, e] => do
        let t ← ofDatum t
        let e ← ofDatum e
        return .withAddress t e s
      | _ => refuse .withAddress
    | some .tuple => do
      let es ← ofDatums operands
      return .tuple es s
    | some .this =>
      match operands with
      | [] => .ok (.this s)
      | _ => refuse .this
    | some .splice =>
      match operands with
      | [e] => do
        let e ← ofDatum e
        return .splice e s
      | _ => refuse .splice
    | some .unquote =>
      match operands with
      | [e] => do
        let e ← ofDatum e
        return .unquote e s
      | _ => refuse .unquote

def ofDatums : List (Datum ν) → Except FormError (List (Expr ν))
  | [] => .ok []
  | d :: ds => do
    let e ← ofDatum d
    let es ← ofDatums ds
    return e :: es

end

theorem ofDatum_symbol (n : String) (s : Span) : ofDatum (.symbol n s) =
    if n = Vocabulary.selfReference then .ok (.this s) else (reference n s).map (.var · s) := by
  rw [ofDatum]
  rfl

end Expr

end TraceFront
