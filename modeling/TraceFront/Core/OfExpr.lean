import TraceFront.Core.Bindings
import TraceFront.Diagnostic.Basic
import TraceFront.Expr.Basic

/-!
# From expressions to core terms

Statements are taken from the last to the first, with what follows them in hand:

* an expression is put in front of the steps that follow it;
* a definition of a name as a function joins the group of such definitions directly after it, or
  opens one;
* any other definition binds the parts of its pattern around what follows.

A definition with nothing after it has the name of its pattern for what follows.  In a block or in
the body of a function that raises a warning.

* `Following`                  what follows a statement, and `Following.term?` its term;
* `Expr.core`                  the core term of an expression;
* `Expr.trailingDefinitions`   the definitions with nothing after them, in the order in which the
                               statements are taken;
* `Expr.warnings`              the warnings about them.
-/

namespace TraceFront

/-- what follows a statement of a block -/
structure Following (ν : Type) where
  /-- the term from the next definition on -/
  core : Option (Core ν)
  /-- the expressions before that definition -/
  steps : List (Core ν)
  /-- the next definition is one of a function, whose group others may join -/
  startsGroup : Bool

namespace Following

variable {ν : Type}

def nothing : Following ν := ⟨none, [], false⟩

/-- an expression in front -/
def step (k : Following ν) (c : Core ν) : Following ν := { k with steps := c :: k.steps }

/-- the term of all that follows; one term alone is not wrapped in a sequence -/
def term? (k : Following ν) : Option (Core ν) :=
  match k.steps with
  | [] => k.core
  | steps =>
    match steps ++ k.core.toList with
    | [c] => some c
    | cs => some (.sequence cs)

/-- a group of functions follows with nothing in between -/
def joinable (k : Following ν) : Bool := k.steps.isEmpty && k.startsGroup

end Following

/-- a definition of a name as a function in front of `rest`; with `join` it becomes part of the
group that `rest` starts with -/
def defineFunction {ν : Type} (name : ν) (function rest : Core ν) (join : Bool) : Core ν :=
  match rest with
  | .bindGroup bs body =>
    if join then .bindGroup ((name, function) :: bs) body
    else .bindGroup [(name, function)] (.bindGroup bs body)
  | rest => .bindGroup [(name, function)] rest

/-- a definition in front of `rest`; `isFunction` tells that the value is a function literal -/
def definePattern (p : Pattern String) (isFunction : Bool) (value rest : Core String)
    (join : Bool) : Core String :=
  match p, isFunction with
  | .name n, true => defineFunction n value rest join
  | p, _ => Core.bindAll (p.bindings value) rest

def Following.define (k : Following String) (p : Pattern String) (isFunction : Bool)
    (value : Core String) : Following String :=
  let rest := k.term?.getD (.var p.wholeName)
  ⟨some (definePattern p isFunction value rest k.joinable), [], p.isAtomic && isFunction⟩

namespace Expr

mutual

def core : Expr String → Core String
  | program p body _ =>
    .lambda p.wholeName (Core.bindAll p.projections ((following body).term?.getD .nil))
  | ifThen p t _ => .conditional p.core t.core .nil
  | ifThenElse p t e _ => .conditional p.core t.core e.core
  | block stmts _ => (following stmts).term?.getD .nil
  | define p v _ => definePattern p v.isProgram v.core (.var p.wholeName) false
  | withAddress t e _ => .withAddress t.core e.core
  | tuple es _ => .tuple (coreAll es)
  | apply f args _ => .apply f.core (coreAll args)
  | literal l _ => .literal l
  | var n _ => .var n
  | this _ => .this
  | splice e _ => .splice e.core
  | unquote e _ => .unquote e.core

def coreAll : List (Expr String) → List (Core String)
  | [] => []
  | e :: es => e.core :: coreAll es

/-- what is in hand when all statements of a sequence have been taken -/
def following : List (Expr String) → Following String
  | [] => .nothing
  | .define p v _ :: stmts => (following stmts).define p v.isProgram v.core
  | e :: stmts => (following stmts).step e.core

end

def coreBlock (stmts : List (Expr String)) : Core String := (following stmts).term?.getD .nil

theorem coreAll_eq_map (es : List (Expr String)) : coreAll es = es.map core := by
  induction es with
  | nil => rfl
  | cons e es ih => simp [coreAll, ih]

theorem core_block (stmts : List (Expr String)) (s : Span) :
    (block stmts s).core = coreBlock stmts := rfl

theorem core_program (p : Pattern String) (body : List (Expr String)) (s : Span) :
    (program p body s).core =
      .lambda p.wholeName (Core.bindAll p.projections (coreBlock body)) := rfl

end Expr

/-! ## warnings -/

/-- a definition with nothing after it: the name of its pattern, and its place -/
structure TrailingDefinition where
  name : String
  span : Span
deriving DecidableEq

def TrailingDefinition.diagnostic (d : TrailingDefinition) : Diagnostic :=
  .ofWarning .trailingDefinition
    ("definition of `" ++ d.name ++ "` is the last statement of its block") d.span
    "nothing follows this definition" ["the block evaluates to `" ++ d.name ++ "`"]

namespace Expr

/-- what the last statement of a sequence contributes itself: it is a trailing definition or
nothing -/
def asTrailing : Expr String → List TrailingDefinition
  | define p _ s => [⟨p.wholeName, s⟩]
  | _ => []

mutual

def trailingDefinitions : Expr String → List TrailingDefinition
  | program _ body _ => trailingInBlock body
  | ifThen p t _ => p.trailingDefinitions ++ t.trailingDefinitions
  | ifThenElse p t e _ =>
    p.trailingDefinitions ++ t.trailingDefinitions ++ e.trailingDefinitions
  | block stmts _ => trailingInBlock stmts
  | define _ v _ => v.trailingDefinitions
  | withAddress t e _ => t.trailingDefinitions ++ e.trailingDefinitions
  | tuple es _ => trailingInAll es
  | apply f args _ => f.trailingDefinitions ++ trailingInAll args
  | literal _ _ => []
  | var _ _ => []
  | this _ => []
  | splice e _ => e.trailingDefinitions
  | unquote e _ => e.trailingDefinitions

def trailingInAll : List (Expr String) → List TrailingDefinition
  | [] => []
  | e :: es => e.trailingDefinitions ++ trailingInAll es

/-- the trailing definitions of a statement sequence, from the last statement to the first -/
def trailingInBlock : List (Expr String) → List TrailingDefinition
  | [] => []
  | [e] => e.asTrailing ++ e.trailingDefinitions
  | e :: e' :: es => trailingInBlock (e' :: es) ++ e.trailingDefinitions

end

def warnings (e : Expr String) : List Diagnostic :=
  e.trailingDefinitions.map TrailingDefinition.diagnostic

def warningsBlock (stmts : List (Expr String)) : List Diagnostic :=
  (trailingInBlock stmts).map TrailingDefinition.diagnostic

theorem trailingInAll_eq_flatMap (es : List (Expr String)) :
    trailingInAll es = es.flatMap trailingDefinitions := by
  induction es with
  | nil => rfl
  | cons e es ih => simp [trailingInAll, ih]

end Expr

end TraceFront
