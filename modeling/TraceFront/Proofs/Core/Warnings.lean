import Mathlib.Data.List.Perm.Basic
import TraceFront.Proofs.Core.Runs
import TraceFront.Proofs.Expr.Subterms

/-!
# Warnings about definitions with nothing after them

The warnings about an expression are described twice.  First by the places where one is due: at a
block or at a function whose last statement is a definition, and nowhere else.

* `Expr.warningDue?`            the warning that is due at an expression itself;
* `Expr.trailing_perm`          the trailing definitions are those of all expressions inside.

Then by the pass that makes the core term.  It takes statements from the last to the first and raises
a warning when it comes to a definition with no term in hand.

* `Expr.desugar`, `Expr.scan`   the pass, which logs what it takes and which warnings it raises;
* `Does`                        what a part of the pass gives, takes and raises;
* `Expr.does_desugar`           the pass gives the core term, takes every expression inside ONCE and
                                raises the warnings of the expression, in their order.

That no term is in hand means that nothing follows (`isNone_term?_following`), so that the pass and
the description agree on where a warning is due.
-/

namespace TraceFront

namespace Expr

/-! ## where a warning is due -/

/-- the statements of a block or of the body of a function -/
def ownStatements : Expr String → List (Expr String)
  | program _ body _ => body
  | block stmts _ => stmts
  | _ => []

/-- the warning that is due at an expression: its last statement is a definition -/
def warningDue? (e : Expr String) : Option Diagnostic :=
  match e.ownStatements.getLast? with
  | some (define p _ s) => some {
      code := .trailingDefinition
      severity := .warning
      message := "definition of `" ++ p.wholeName ++ "` is the last statement of its block"
      labels := [⟨s, "nothing follows this definition", true⟩]
      notes := ["the block evaluates to `" ++ p.wholeName ++ "`"] }
  | _ => none

/-- the trailing definition of a statement sequence, if it has one -/
def trailingOf (stmts : List (Expr String)) : List TrailingDefinition :=
  stmts.getLast?.toList.flatMap asTrailing

theorem trailingOf_cons_cons (e e' : Expr String) (stmts : List (Expr String)) :
    trailingOf (e :: e' :: stmts) = trailingOf (e' :: stmts) := by
  rw [trailingOf, List.getLast?_cons_cons]
  rfl

theorem toList_warningDue? (e : Expr String) :
    e.warningDue?.toList = (trailingOf e.ownStatements).map TrailingDefinition.diagnostic := by
  unfold warningDue? trailingOf
  cases e.ownStatements.getLast? with
  | none => rfl
  | some stmt => cases stmt <;> rfl

theorem trailingInBlock_cons (e : Expr String) (stmts : List (Expr String)) :
    trailingInBlock (e :: stmts) =
      trailingInBlock stmts ++ ((if stmts.isEmpty then e.asTrailing else []) ++
        e.trailingDefinitions) := by
  cases stmts with
  | nil => rfl
  | cons e' stmts => rfl

/-- a sequence has its own trailing definition and those inside its statements -/
theorem trailingInBlock_perm (stmts : List (Expr String)) :
    (trailingInBlock stmts).Perm (trailingOf stmts ++ stmts.flatMap trailingDefinitions) := by
  induction stmts with
  | nil => exact .nil
  | cons e stmts ih =>
    rw [trailingInBlock_cons, List.flatMap_cons]
    cases stmts with
    | nil =>
      show (e.asTrailing ++ e.trailingDefinitions).Perm
        ((e.asTrailing ++ []) ++ (e.trailingDefinitions ++ []))
      rw [List.append_nil, List.append_nil]
    | cons e' stmts =>
      show (trailingInBlock (e' :: stmts) ++ e.trailingDefinitions).Perm _
      rw [trailingOf_cons_cons]
      -- what is inside the first statement moves to its place in front of the others
      refine (ih.append_right _).trans ?_
      rw [List.append_assoc]
      exact List.perm_append_comm.append_left _

theorem trailingDefinitions_perm (e : Expr String) :
    e.trailingDefinitions.Perm
      (trailingOf e.ownStatements ++ e.children.flatMap trailingDefinitions) := by
  cases e with
  | program p body s => exact trailingInBlock_perm body
  | block stmts s => exact trailingInBlock_perm stmts
  | _ =>
    refine .of_eq ?_
    simp [trailingDefinitions, ownStatements, trailingOf, children, trailingInAll_eq_flatMap]

/-- the trailing definitions of an expression are those of the expressions inside it -/
theorem trailing_perm (e : Expr String) :
    e.trailingDefinitions.Perm (e.subterms.flatMap fun f => trailingOf f.ownStatements) := by
  induction e using childInduction with
  | step e ih =>
    rw [subterms_eq, List.flatMap_cons, subtermsAll_eq_flatMap, List.flatMap_assoc]
    exact (trailingDefinitions_perm e).trans ((List.Perm.flatMap_left _ ih).append_left _)

theorem warnings_perm (e : Expr String) : e.warnings.Perm (e.subterms.filterMap warningDue?) := by
  have hdue : e.subterms.filterMap warningDue? =
      (e.subterms.flatMap fun f => trailingOf f.ownStatements).map TrailingDefinition.diagnostic := by
    rw [List.map_flatMap, List.filterMap_eq_flatMap_toList]
    simp only [toList_warningDue?]
  rw [hdue]
  exact (trailing_perm e).map _

end Expr

/-! ## the pass -/

/-- what a pass over expressions has done so far, the oldest first -/
structure PassLog where
  /-- the expressions and statements that were taken -/
  taken : List (Expr String)
  /-- the warnings that were raised -/
  raised : List Diagnostic

/-- a part of the pass, which adds to the log -/
abbrev Pass := StateM PassLog

namespace Pass

/-- an expression is taken -/
def take (e : Expr String) : Pass Unit := modify fun l => { l with taken := l.taken ++ [e] }

/-- a definition is found with nothing in hand to go after it -/
def raiseIf (nothing : Bool) (d : TrailingDefinition) : Pass Unit :=
  if nothing then modify fun l => { l with raised := l.raised ++ [d.diagnostic] } else pure ()

end Pass

namespace Expr

mutual

/-- the core term of an expression, made in one pass -/
def desugar (e : Expr String) : Pass (Core String) := do
  Pass.take e
  match e with
  | program p body _ =>
    let k ← scan body
    return .lambda p.wholeName (Core.bindAll p.projections (k.term?.getD .nil))
  | ifThen p t _ =>
    let p ← p.desugar
    let t ← t.desugar
    return .conditional p t .nil
  | ifThenElse p t e _ =>
    let p ← p.desugar
    let t ← t.desugar
    let e ← e.desugar
    return .conditional p t e
  | block stmts _ =>
    let k ← scan stmts
    return k.term?.getD .nil
  | define p v _ =>
    let c ← v.desugar
    return definePattern p v.isProgram c (.var p.wholeName) false
  | withAddress t e _ =>
    let t ← t.desugar
    let e ← e.desugar
    return .withAddress t e
  | tuple es _ =>
    let cs ← desugarAll es
    return .tuple cs
  | apply f args _ =>
    let f ← f.desugar
    let cs ← desugarAll args
    return .apply f cs
  | literal l _ => return .literal l
  | var n _ => return .var n
  | this _ => return .this
  | splice e _ =>
    let c ← e.desugar
    return .splice c
  | unquote e _ =>
    let c ← e.desugar
    return .unquote c

/-- the core terms of expressions, from left to right -/
def desugarAll : List (Expr String) → Pass (List (Core String))
  | [] => return []
  | e :: es => do
    let c ← e.desugar
    let cs ← desugarAll es
    return c :: cs

/-- the statements of a sequence, from the last to the first -/
def scan : List (Expr String) → Pass (Following String)
  | [] => return .nothing
  | .define p v s :: stmts => do
    let k ← scan stmts
    Pass.take (.define p v s)
    Pass.raiseIf k.term?.isNone ⟨p.wholeName, s⟩
    let c ← v.desugar
    return k.define p v.isProgram c
  | e :: stmts => do
    let k ← scan stmts
    let c ← e.desugar
    return k.step c

end

end Expr

/-! ## what the pass does -/

/-- whatever was done before, this part of the pass gives `a`, takes the expressions `es` in some
order, and raises the warnings about `ds` in this order -/
def Does {α : Type} (m : Pass α) (a : α) (es : List (Expr String)) (ds : List TrailingDefinition) :
    Prop :=
  ∀ l : PassLog, ∃ taken, m.run l =
    (a, ⟨l.taken ++ taken, l.raised ++ ds.map TrailingDefinition.diagnostic⟩) ∧ taken.Perm es

namespace Does

variable {α β : Type} {m : Pass α} {a : α} {es es' : List (Expr String)}
    {ds ds' : List TrailingDefinition}

theorem pure (a : α) : Does (Pure.pure a) a [] [] := by
  intro l
  refine ⟨[], ?_, .nil⟩
  rw [List.append_nil, List.map_nil, List.append_nil]
  rfl

theorem take (e : Expr String) : Does (Pass.take e) () [e] [] := by
  intro l
  refine ⟨[e], ?_, .refl _⟩
  rw [List.map_nil, List.append_nil]
  rfl

theorem raiseIf (nothing : Bool) (d : TrailingDefinition) :
    Does (Pass.raiseIf nothing d) () [] (if nothing then [d] else []) := by
  cases nothing with
  | false => exact Does.pure ()
  | true =>
    intro l
    refine ⟨[], ?_, .nil⟩
    rw [List.append_nil]
    rfl

theorem bind {f : α → Pass β} {b : β} (hm : Does m a es ds) (hf : Does (f a) b es' ds') :
    Does (m >>= f) b (es ++ es') (ds ++ ds') := by
  intro l
  obtain ⟨first, hfirst, hes⟩ := hm l
  obtain ⟨second, hsecond, hes'⟩ :=
    hf ⟨l.taken ++ first, l.raised ++ ds.map TrailingDefinition.diagnostic⟩
  refine ⟨first ++ second, ?_, hes.append hes'⟩
  rw [StateT.run_bind, hfirst]
  show (f a).run _ = _
  rw [hsecond, List.append_assoc, List.append_assoc, List.map_append]

theorem map (f : α → β) (hm : Does m a es ds) :
    Does (m >>= fun x => Pure.pure (f x)) (f a) es ds := by
  have h : Does (m >>= fun x => Pure.pure (f x)) (f a) (es ++ []) (ds ++ []) :=
    hm.bind (Does.pure (f a))
  rwa [List.append_nil, List.append_nil] at h

theorem perm (hm : Does m a es ds) (h : es.Perm es') : Does m a es' ds := by
  intro l
  obtain ⟨taken, hrun, hes⟩ := hm l
  exact ⟨taken, hrun, hes.trans h⟩

end Does

namespace Expr

theorem isNone_term?_following (stmts : List (Expr String)) :
    (following stmts).term?.isNone = stmts.isEmpty := by
  cases stmts with
  | nil => rfl
  | cons e stmts =>
    obtain ⟨d, hd⟩ := exists_term?_following e stmts
    rw [hd]
    rfl

theorem scan_expression {e : Expr String} (h : e.isDefinition = false)
    (stmts : List (Expr String)) :
    scan (e :: stmts) = scan stmts >>= fun k => e.desugar >>= fun c => pure (k.step c) := by
  cases e with
  | define p v s => cases h
  | _ => rfl

theorem asTrailing_of_not_definition {e : Expr String} (h : e.isDefinition = false) :
    e.asTrailing = [] := by
  cases e with
  | define p v s => cases h
  | _ => rfl

theorem does_scan_expression {e : Expr String} (h : e.isDefinition = false)
    {stmts : List (Expr String)} (he : Does e.desugar e.core e.subterms e.trailingDefinitions)
    (hstmts : Does (scan stmts) (following stmts) (subtermsAll stmts) (trailingInBlock stmts)) :
    Does (scan (e :: stmts)) (following (e :: stmts)) (subtermsAll (e :: stmts))
      (trailingInBlock (e :: stmts)) := by
  rw [scan_expression h, following_expression h, subtermsAll, trailingInBlock_cons,
    asTrailing_of_not_definition h, ite_self, List.nil_append]
  exact (hstmts.bind (he.map _)).perm List.perm_append_comm

/-- the definition is taken before its value, and there is no term in hand only behind the last
statement -/
theorem does_scan_define (p : Pattern String) {v : Expr String} (s : Span)
    {stmts : List (Expr String)} (hv : Does v.desugar v.core v.subterms v.trailingDefinitions)
    (hstmts : Does (scan stmts) (following stmts) (subtermsAll stmts) (trailingInBlock stmts)) :
    Does (scan (define p v s :: stmts)) (following (define p v s :: stmts))
      (subtermsAll (define p v s :: stmts)) (trailingInBlock (define p v s :: stmts)) := by
  rw [subtermsAll, subterms, trailingInBlock_cons, ← isNone_term?_following stmts]
  exact (hstmts.bind ((Does.take _).bind ((Does.raiseIf _ _).bind (hv.map _)))).perm
    List.perm_append_comm

mutual

/-- the pass gives the core term, takes every expression inside once and raises its warnings -/
theorem does_desugar : ∀ e : Expr String, Does e.desugar e.core e.subterms e.trailingDefinitions
  | program p body s => (Does.take _).bind ((does_scan body).map _)
  | ifThen p t s => (Does.take _).bind ((does_desugar p).bind ((does_desugar t).map _))
  | ifThenElse p t e s => by
    rw [subterms, trailingDefinitions, List.append_assoc, List.append_assoc]
    exact (Does.take _).bind
      ((does_desugar p).bind ((does_desugar t).bind ((does_desugar e).map _)))
  | block stmts s => (Does.take _).bind ((does_scan stmts).map _)
  | define p v s => (Does.take _).bind ((does_desugar v).map _)
  | withAddress t e s => (Does.take _).bind ((does_desugar t).bind ((does_desugar e).map _))
  | tuple es s => (Does.take _).bind ((does_desugarAll es).map _)
  | apply f args s => (Does.take _).bind ((does_desugar f).bind ((does_desugarAll args).map _))
  | literal l s => (Does.take _).bind (Does.pure _)
  | var n s => (Does.take _).bind (Does.pure _)
  | this s => (Does.take _).bind (Does.pure _)
  | splice e s => (Does.take _).bind ((does_desugar e).map _)
  | unquote e s => (Does.take _).bind ((does_desugar e).map _)

theorem does_desugarAll : ∀ es : List (Expr String),
    Does (desugarAll es) (coreAll es) (subtermsAll es) (trailingInAll es)
  | [] => Does.pure _
  | e :: es => (does_desugar e).bind ((does_desugarAll es).map _)

theorem does_scan : ∀ stmts : List (Expr String),
    Does (scan stmts) (following stmts) (subtermsAll stmts) (trailingInBlock stmts)
  | [] => Does.pure _
  | e :: stmts => by
    cases e with
    | define p v s => exact does_scan_define p s (does_desugar v) (does_scan stmts)
    | _ => exact does_scan_expression rfl (does_desugar _) (does_scan stmts)

end

/-- **Warnings are exact.**  Up to order, an expression has the warnings that are due at the
expressions inside it, each at a block or function whose last statement is a definition.  The pass
that makes the core term raises these warnings and takes every expression inside once. -/
theorem warnings_of_last_definitions (e : Expr String) :
    e.warnings.Perm (e.subterms.filterMap warningDue?) ∧
      ∃ taken, e.desugar.run ⟨[], []⟩ = (e.core, ⟨taken, e.warnings⟩) ∧ taken.Perm e.subterms :=
  ⟨warnings_perm e, does_desugar e ⟨[], []⟩⟩

end Expr

end TraceFront
