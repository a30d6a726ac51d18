import TraceFront.Core.OfExpr
import TraceFront.Interner

/-!
# From expressions to core terms, on handles

Desugaring as a session runs it: names that are synthesized for patterns are taken in where the code
of `TraceFront.Core.OfExpr` needs them.  Statements are taken from the last to the first, so the
names of the last definition come first.

* `Desugaring`                a step that may take in texts and raise warnings;
* `Pattern.synthesize`        the handle of the name that a pattern binds its whole value to;
* `Pattern.destructure`       the bindings of a pattern and a value;
* `Expr.toCore`, `Expr.scanAll`   the core term of an expression, and what is in hand after a scan.
-/

namespace TraceFront

/-- what desugaring changes -/
structure Desugarer where
  interner : Interner
  warnings : List Diagnostic

abbrev Desugaring := StateM Desugarer

namespace Desugaring

def intern (s : String) : Desugaring Name := modifyGet fun d =>
  let (n, interner) := d.interner.intern s
  (n, { d with interner })

def textOf (n : Name) : Desugaring String := return (← get).interner.textOf n

def warn (w : Diagnostic) : Desugaring Unit :=
  modify fun d => { d with warnings := d.warnings ++ [w] }

end Desugaring

open Desugaring (intern textOf warn)

namespace Pattern

/-- the handle of the name that a pattern binds its whole value to; only a single name has it
already -/
def synthesize (p : Pattern Name) : Desugaring Name := do
  match p with
  | name n => return n
  | p => intern (p.map (← get).interner.textOf).wholeName

mutual

/-- the bindings of a pattern inside a larger one; a wildcard binds nothing -/
def destructureInto (value : Core Name) : Pattern Name → Desugaring (List (Name × Core Name))
  | name n => return [(n, value)]
  | wildcard => return []
  | tuple ps => do
    let whole ← (tuple ps).synthesize
    let parts ← destructureItems whole 0 ps
    return (whole, value) :: parts

/-- the bindings of the parts of a tuple that is bound to `whole`, from position `index` on -/
def destructureItems (whole : Name) (index : Nat) :
    List (Pattern Name) → Desugaring (List (Name × Core Name))
  | [] => return []
  | p :: ps => do
    let first ← destructureInto (.project (.var whole) index) p
    let rest ← destructureItems whole (index + 1) ps
    return first ++ rest

end

def destructure (p : Pattern Name) (value : Core Name) : Desugaring (List (Name × Core Name)) := do
  match p with
  | wildcard => return [(← intern Vocabulary.wildcard, value)]
  | p => destructureInto value p

/-- the bindings of the parts of a parameter; the parameter itself is bound already -/
def destructureParameter (p : Pattern Name) (param : Name) :
    Desugaring (List (Name × Core Name)) := do
  match p with
  | tuple ps => return (← (tuple ps).destructure (.var param)).tail
  | _ => return []

/-- a definition in front of `rest`; `isFunction` tells that the value is a function literal -/
def define (p : Pattern Name) (isFunction : Bool) (value rest : Core Name) (join : Bool) :
    Desugaring (Core Name) := do
  match p, isFunction with
  | name n, true => return defineFunction n value rest join
  | p, _ => return Core.bindAll (← p.destructure value) rest

/-- what comes after a definition: the term in hand, or the name of the pattern with a warning if
there is none -/
def restAfter (p : Pattern Name) (span : Span) (following : Option (Core Name)) :
    Desugaring (Core Name) := do
  match following with
  | some rest => return rest
  | none =>
    let bound ← p.synthesize
    let text ← textOf bound
    warn (TrailingDefinition.diagnostic ⟨text, span⟩)
    return .var bound

end Pattern

namespace Expr

mutual

def toCore : Expr Name → Desugaring (Core Name)
  | program p body _ => do
    let k ← scanAll body
    let param ← p.synthesize
    let projections ← p.destructureParameter param
    return .lambda param (Core.bindAll projections (k.term?.getD .nil))
  | ifThen p t _ => do
    let p ← p.toCore
    let t ← t.toCore
    return .conditional p t .nil
  | ifThenElse p t e _ => do
    let p ← p.toCore
    let t ← t.toCore
    let e ← e.toCore
    return .conditional p t e
  | block stmts _ => do
    let k ← scanAll stmts
    return k.term?.getD .nil
  | define p v _ => do
    let bound ← p.synthesize
    let value ← v.toCore
    p.define v.isProgram value (.var bound) false
  | withAddress t e _ => do
    let t ← t.toCore
    let e ← e.toCore
    return .withAddress t e
  | tuple es _ => do
    let cs ← toCores es
    return .tuple cs
  | apply f args _ => do
    let f ← f.toCore
    let cs ← toCores args
    return .apply f cs
  | literal l _ => return .literal l
  | var n _ => return .var n
  | this _ => return .this
  | splice e _ => do
    let c ← e.toCore
    return .splice c
  | unquote e _ => do
    let c ← e.toCore
    return .unquote c

def toCores : List (Expr Name) → Desugaring (List (Core Name))
  | [] => return []
  | e :: es => do
    let c ← e.toCore
    let cs ← toCores es
    return c :: cs

/-- what is in hand when all statements of a sequence have been taken, the last one first -/
def scanAll : List (Expr Name) → Desugaring (Following Name)
  | [] => return .nothing
  | .define p v s :: stmts => do
    let k ← scanAll stmts
    let rest ← p.restAfter s k.term?
    let value ← v.toCore
    let c ← p.define v.isProgram value rest k.joinable
    return ⟨some c, [], p.isAtomic && v.isProgram⟩
  | e :: stmts => do
    let k ← scanAll stmts
    let c ← e.toCore
    return k.step c

end

end Expr

end TraceFront
