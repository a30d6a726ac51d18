import Mathlib.Data.List.Forall2
import TraceFront.Proofs.Expr.Frames

/-!
# Two ways of writing the same

A choice without an alternative can be written with the alternative `nil`, and several statements of
a function, or none, can be written as one block.  Expressions are alike if they differ in such
places only, and in where they stand.

* `Expr.moved`        the expression at another place;
* `Expr.Alike`        the congruence that places and the two rewritings generate;
* `Alike.congrList`   alike lists of children make alike expressions.
-/

namespace TraceFront

namespace Expr

/-- the expression at another place -/
def moved (s : Span) : Expr String → Expr String
  | program p body _ => program p body s
  | ifThen p t _ => ifThen p t s
  | ifThenElse p t e _ => ifThenElse p t e s
  | block stmts _ => block stmts s
  | define p v _ => define p v s
  | withAddress t e _ => withAddress t e s
  | tuple es _ => tuple es s
  | apply f args _ => apply f args s
  | literal l _ => literal l s
  | var n _ => var n s
  | this _ => this s
  | splice e _ => splice e s
  | unquote e _ => unquote e s

theorem moved_span (e : Expr String) : e.moved e.span = e := by
  cases e <;> rfl

/-- equal up to places and the two ways of writing -/
inductive Alike : Expr String → Expr String → Prop
  | moved (e : Expr String) (s : Span) : Alike e (e.moved s)
  /-- a missing alternative is `nil` -/
  | missing (p t : Expr String) (s s' : Span) :
      Alike (ifThen p t s) (ifThenElse p t (literal .nil s') s)
  /-- statements other than a single one are a block -/
  | wrapped (p : Pattern String) {stmts : List (Expr String)} (s s' : Span) (h : stmts.length ≠ 1) :
      Alike (program p stmts s) (program p [block stmts s'] s)
  | inside (k : Frame) {e f : Expr String} : Alike e f → Alike (k.fill e) (k.fill f)
  | symm {e f : Expr String} : Alike e f → Alike f e
  | trans {e f g : Expr String} : Alike e f → Alike f g → Alike e g

namespace Alike

theorem refl (e : Expr String) : Alike e e := by
  have h := Alike.moved e e.span
  rwa [moved_span] at h

/-- alike lists of children make alike expressions, if single children do -/
theorem congrList (F : List (Expr String) → Expr String)
    (hF : ∀ before after {e f}, Alike e f → Alike (F (before ++ e :: after)) (F (before ++ f :: after)))
    {es fs : List (Expr String)} (h : List.Forall₂ Alike es fs) : Alike (F es) (F fs) := by
  -- the children are exchanged one after the other, from the left
  induction h generalizing F with
  | nil => exact refl _
  | @cons e f es fs hef _ ih =>
    have hfirst : Alike (F (e :: es)) (F (f :: es)) := hF [] es hef
    exact hfirst.trans (ih (fun l => F (f :: l)) fun before after _ _ hg => hF (f :: before) after hg)

end Alike

end Expr

end TraceFront
