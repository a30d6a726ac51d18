import TraceFront.Expr.Basic

/-!
# The expressions inside an expression

* `Expr.children`            the expressions directly below;
* `Expr.childInduction`      what passes from the children to their parent holds everywhere;
* `Expr.subterms`            the expression itself and all expressions below it, parents first;
* `Expr.identifiers`         the variables and the names that patterns bind, at any depth.

Functions on expressions are mutual with a function on lists of expressions.  The lemmas `_eq` say
what such a function does to the children as a whole, so that a proof by `childInduction` need not
go through the thirteen forms again.
-/

set_option linter.unusedSectionVars false

namespace TraceFront

namespace Expr

/-- the expressions directly below, from left to right -/
def children : Expr String → List (Expr String)
  | program _ body _ => body
  | ifThen p t _ => [p, t]
  | ifThenElse p t e _ => [p, t, e]
  | block stmts _ => stmts
  | define _ v _ => [v]
  | withAddress t e _ => [t, e]
  | tuple es _ => es
  | apply f args _ => f :: args
  | literal _ _ => []
  | var _ _ => []
  | this _ => []
  | splice e _ => [e]
  | unquote e _ => [e]

section
variable {motive : Expr String → Prop} (step : ∀ e, (∀ c ∈ e.children, motive c) → motive e)
include step

mutual

theorem childInduction : ∀ e, motive e
  | program _ body _ => step _ (childInductionAll body)
  | ifThen p t _ => step _ (List.forall_mem_cons.mpr ⟨childInduction p,
      List.forall_mem_singleton.mpr (childInduction t)⟩)
  | ifThenElse p t e _ => step _ (List.forall_mem_cons.mpr ⟨childInduction p,
      List.forall_mem_cons.mpr ⟨childInduction t,
        List.forall_mem_singleton.mpr (childInduction e)⟩⟩)
  | block stmts _ => step _ (childInductionAll stmts)
  | define _ v _ => step _ (List.forall_mem_singleton.mpr (childInduction v))
  | withAddress t e _ => step _ (List.forall_mem_cons.mpr ⟨childInduction t,
      List.forall_mem_singleton.mpr (childInduction e)⟩)
  | tuple es _ => step _ (childInductionAll es)
  | apply f args _ => step _ (List.forall_mem_cons.mpr ⟨childInduction f, childInductionAll args⟩)
  | literal _ _ => step _ (List.forall_mem_nil _)
  | var _ _ => step _ (List.forall_mem_nil _)
  | this _ => step _ (List.forall_mem_nil _)
  | splice e _ => step _ (List.forall_mem_singleton.mpr (childInduction e))
  | unquote e _ => step _ (List.forall_mem_singleton.mpr (childInduction e))

theorem childInductionAll : ∀ es : List (Expr String), ∀ e ∈ es, motive e
  | [] => List.forall_mem_nil _
  | e :: es => List.forall_mem_cons.mpr ⟨childInduction e, childInductionAll es⟩

end

end

/-! ## subterms -/

mutual

/-- the expression and all expressions below it, parents first -/
def subterms : Expr String → List (Expr String)
  | program p body s => program p body s :: subtermsAll body
  | ifThen p t s => ifThen p t s :: (p.subterms ++ t.subterms)
  | ifThenElse p t e s => ifThenElse p t e s :: (p.subterms ++ t.subterms ++ e.subterms)
  | block stmts s => block stmts s :: subtermsAll stmts
  | define p v s => define p v s :: v.subterms
  | withAddress t e s => withAddress t e s :: (t.subterms ++ e.subterms)
  | tuple es s => tuple es s :: subtermsAll es
  | apply f args s => apply f args s :: (f.subterms ++ subtermsAll args)
  | literal l s => [literal l s]
  | var n s => [var n s]
  | this s => [this s]
  | splice e s => splice e s :: e.subterms
  | unquote e s => unquote e s :: e.subterms

def subtermsAll : List (Expr String) → List (Expr String)
  | [] => []
  | e :: es => e.subterms ++ subtermsAll es

end

theorem subtermsAll_eq_flatMap (es : List (Expr String)) :
    subtermsAll es = es.flatMap subterms := by
  induction es with
  | nil => rfl
  | cons e es ih => rw [subtermsAll, ih, List.flatMap_cons]

theorem subterms_eq (e : Expr String) : e.subterms = e :: subtermsAll e.children := by
  cases e <;> simp [subterms, children, subtermsAll]

theorem mem_subterms_self (e : Expr String) : e ∈ e.subterms := by
  rw [subterms_eq]
  exact List.mem_cons_self

theorem mem_subtermsAll {e : Expr String} {es : List (Expr String)} :
    e ∈ subtermsAll es ↔ ∃ f ∈ es, e ∈ f.subterms := by
  rw [subtermsAll_eq_flatMap]
  exact List.mem_flatMap

theorem mem_subterms {e f : Expr String} :
    e ∈ f.subterms ↔ e = f ∨ ∃ c ∈ f.children, e ∈ c.subterms := by
  rw [subterms_eq, List.mem_cons, mem_subtermsAll]

theorem mem_subterms_trans {d c e : Expr String} (hd : d ∈ c.subterms) (hc : c ∈ e.subterms) :
    d ∈ e.subterms := by
  induction e using childInduction with
  | step e ih =>
    rcases mem_subterms.mp hc with rfl | ⟨b, hb, hcb⟩
    · exact hd
    · exact mem_subterms.mpr (.inr ⟨b, hb, ih b hb hcb⟩)

/-! ## identifiers -/

mutual

/-- the variables and the names that patterns bind, from left to right -/
def identifiers : Expr String → List String
  | program p body _ => p.binders ++ identifiersAll body
  | ifThen p t _ => p.identifiers ++ t.identifiers
  | ifThenElse p t e _ => p.identifiers ++ t.identifiers ++ e.identifiers
  | block stmts _ => identifiersAll stmts
  | define p v _ => p.binders ++ v.identifiers
  | withAddress t e _ => t.identifiers ++ e.identifiers
  | tuple es _ => identifiersAll es
  | apply f args _ => f.identifiers ++ identifiersAll args
  | literal _ _ => []
  | var n _ => [n]
  | this _ => []
  | splice e _ => e.identifiers
  | unquote e _ => e.identifiers

def identifiersAll : List (Expr String) → List String
  | [] => []
  | e :: es => e.identifiers ++ identifiersAll es

end

/-- the identifiers that belong to the expression itself and to none of its children -/
def ownIdentifiers : Expr String → List String
  | program p _ _ => p.binders
  | define p _ _ => p.binders
  | var n _ => [n]
  | _ => []

theorem identifiersAll_eq_flatMap (es : List (Expr String)) :
    identifiersAll es = es.flatMap identifiers := by
  induction es with
  | nil => rfl
  | cons e es ih => rw [identifiersAll, ih, List.flatMap_cons]

theorem identifiers_eq (e : Expr String) :
    e.identifiers = e.ownIdentifiers ++ identifiersAll e.children := by
  cases e <;> simp [identifiers, ownIdentifiers, children, identifiersAll]

theorem mem_identifiersAll {n : String} {es : List (Expr String)} :
    n ∈ identifiersAll es ↔ ∃ e ∈ es, n ∈ e.identifiers := by
  rw [identifiersAll_eq_flatMap]
  exact List.mem_flatMap

theorem identifiers_of_mem_children {c e : Expr String} (hc : c ∈ e.children) {n : String}
    (hn : n ∈ c.identifiers) : n ∈ e.identifiers := by
  rw [identifiers_eq]
  exact List.mem_append_right _ (mem_identifiersAll.mpr ⟨c, hc, hn⟩)

/-- an identifier of a subterm is one of the whole expression -/
theorem identifiers_of_mem_subterms {e f : Expr String} (h : e ∈ f.subterms) {n : String}
    (hn : n ∈ e.identifiers) : n ∈ f.identifiers := by
  induction f using childInduction with
  | step f ih =>
    rcases mem_subterms.mp h with rfl | ⟨c, hc, hec⟩
    · exact hn
    · exact identifiers_of_mem_children hc (ih c hc hec)

end Expr

end TraceFront
