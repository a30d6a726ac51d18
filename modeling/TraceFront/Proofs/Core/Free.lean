import Mathlib.Data.Finset.Dedup
import Mathlib.Data.Finset.Lattice.Lemmas
import Mathlib.Data.Finset.SDiff
import TraceFront.Proofs.Core.Runs
import TraceFront.Proofs.Source.Identifiers

/-!
# Free variables

The free variables of an expression are given by the scoping of the surface language, those of a
core term by its binders.

* `Core.free`               the free variables of a core term;
* `Statement`               what a statement uses and binds;
* `freeInSequence`          the free variables of a sequence, by maximal runs of functions;
* `Expr.free`               the free variables of an expression;
* `free_bindAll_bindings`   what the bindings of a pattern do to the free variables;
* `mem_boundNames`          which of the user's names they bind.

A tuple pattern binds one name for itself and one for each nested tuple, and each projection takes
from the name bound just before (`mem_free_itemBindings`).  Such names hold a bracket, which no
identifier does, so that they neither bind a name of the user nor are bound by one.
-/

namespace TraceFront

/-! ## free variables of core terms -/

namespace Core

mutual

/-- the free variables of a core term -/
def free : Core String → Finset String
  | nil => ∅
  | literal _ => ∅
  | var n => {n}
  | this => ∅
  | lambda p b => b.free \ {p}
  | conditional p t e => p.free ∪ t.free ∪ e.free
  | bind n v b => v.free ∪ (b.free \ {n})
  | bindGroup bs b => (freeBindings bs ∪ b.free) \ (bs.map (·.1)).toFinset
  | sequence cs => freeAll cs
  | apply f cs => f.free ∪ freeAll cs
  | tuple cs => freeAll cs
  | project c _ => c.free
  | withAddress t c => t.free ∪ c.free
  | splice c => c.free
  | unquote c => c.free

def freeAll : List (Core String) → Finset String
  | [] => ∅
  | c :: cs => c.free ∪ freeAll cs

def freeBindings : List (String × Core String) → Finset String
  | [] => ∅
  | (_, c) :: bs => c.free ∪ freeBindings bs

end

theorem bindAll_append (as bs : List (String × Core String)) (body : Core String) :
    bindAll (as ++ bs) body = bindAll as (bindAll bs body) :=
  List.foldr_append

end Core

/-! ## free variables of expressions -/

/-- what a statement uses, the names that it binds for the statements after it, and whether it is
the definition of a function -/
structure Statement where
  uses : Finset String
  binds : List String
  isFunction : Bool

def usesOf : List Statement → Finset String
  | [] => ∅
  | s :: ss => s.uses ∪ usesOf ss

/-- the names that the statements bind -/
def bindsOf (ss : List Statement) : Finset String := (ss.flatMap Statement.binds).toFinset

/-- the free variables of a statement sequence: the names of a maximal run of functions are in scope
in the whole run and after it, those of any other statement only after it -/
def freeInSequence : List Statement → Finset String
  | [] => ∅
  | s :: rest =>
    if s.isFunction then
      let run := s :: rest.takeWhile (·.isFunction)
      let after := rest.dropWhile (·.isFunction)
      (usesOf run ∪ freeInSequence after) \ bindsOf run
    else s.uses ∪ (freeInSequence rest \ s.binds.toFinset)
termination_by ss => ss.length
decreasing_by
  · have h := (List.dropWhile_sublist (·.isFunction) (l := rest)).length_le
    simp only [List.length_cons]
    omega
  · simp

/-- the statement that defines a pattern by a value with the given free variables -/
def Statement.definition (p : Pattern String) (isProgram : Bool) (uses : Finset String) :
    Statement :=
  ⟨uses, p.binders, p.isAtomic && isProgram⟩

namespace Expr

mutual

/-- the free variables of an expression -/
def free : Expr String → Finset String
  | program p body _ => freeInSequence (statements body) \ p.binders.toFinset
  | ifThen p t _ => p.free ∪ t.free
  | ifThenElse p t e _ => p.free ∪ t.free ∪ e.free
  | block stmts _ => freeInSequence (statements stmts)
  | define p v _ => freeInSequence [.definition p v.isProgram v.free]
  | withAddress t e _ => t.free ∪ e.free
  | tuple es _ => freeAll es
  | apply f args _ => f.free ∪ freeAll args
  | literal _ _ => ∅
  | var n _ => {n}
  | this _ => ∅
  | splice e _ => e.free
  | unquote e _ => e.free

def freeAll : List (Expr String) → Finset String
  | [] => ∅
  | e :: es => e.free ∪ freeAll es

/-- the statements of a sequence -/
def statements : List (Expr String) → List Statement
  | [] => []
  | define p v _ :: es => .definition p v.isProgram v.free :: statements es
  | e :: es => ⟨e.free, [], false⟩ :: statements es

end

theorem mem_freeAll {x : String} (es : List (Expr String)) :
    x ∈ freeAll es ↔ ∃ e ∈ es, x ∈ e.free := by
  induction es with
  | nil => simp [freeAll]
  | cons e es ih => simp [freeAll, ih]

end Expr

/-! ## the bindings of a pattern -/

namespace Pattern

/-- the names that a pattern binds in a core term: the synthesized ones are among them -/
def boundNames (p : Pattern String) : List String := p.wholeName :: p.projections.map (·.1)

theorem bindings_eq_cons (p : Pattern String) (v : Core String) :
    p.bindings v = (p.wholeName, v) :: p.projections := by
  cases p <;> rfl

mutual

theorem mem_free_partBindings {x : String} {v : Core String} (hx : x ∉ v.free) (b : Core String) :
    ∀ p : Pattern String, x ∈ (Core.bindAll (p.partBindings v) b).free ↔
      x ∈ b.free ∧ x ∉ (p.partBindings v).map (·.1)
  | name n => by simp [partBindings, Core.free, hx]
  | wildcard => by simp [partBindings]
  | tuple ps => by
    by_cases hw : x = (tuple ps).wholeName
    · rw [hw] at hx
      simp [partBindings, Core.free, hx, hw]
    · have hps := mem_free_itemBindings hw b 0 ps
      simp [partBindings, Core.free, hx, hw, hps]

/-- each part of a tuple is taken from the name of the tuple, so that nothing else becomes free -/
theorem mem_free_itemBindings {x w : String} (hx : x ≠ w) (b : Core String) :
    ∀ (i : Nat) (ps : List (Pattern String)), x ∈ (Core.bindAll (itemBindings w i ps) b).free ↔
      x ∈ b.free ∧ x ∉ (itemBindings w i ps).map (·.1)
  | _, [] => by simp [itemBindings]
  | i, p :: ps => by
    have hv : x ∉ (Core.project (.var w) i).free := by simpa [Core.free] using hx
    rw [itemBindings, Core.bindAll_append, mem_free_partBindings hv _ p,
      mem_free_itemBindings hx b (i + 1) ps, List.map_append, List.mem_append, not_or, and_assoc,
      and_comm (a := _ ∉ _)]

end

theorem free_bindAll_projections (p : Pattern String) (b : Core String) :
    (Core.bindAll p.projections b).free \ {p.wholeName} = b.free \ p.boundNames.toFinset := by
  have parts : ∀ x ≠ p.wholeName, (x ∈ (Core.bindAll p.projections b).free ↔
      x ∈ b.free ∧ x ∉ p.projections.map (·.1)) := by
    intro x hx
    cases p with
    | name n => simp [projections]
    | wildcard => simp [projections]
    | tuple ps => exact mem_free_itemBindings hx b 0 ps
  ext x
  rw [Finset.mem_sdiff, Finset.mem_singleton, Finset.mem_sdiff, List.mem_toFinset, boundNames,
    List.mem_cons, not_or]
  constructor
  · rintro ⟨hb, hx⟩
    obtain ⟨hb, hp⟩ := (parts x hx).mp hb
    exact ⟨hb, hx, hp⟩
  · rintro ⟨hb, hx, hp⟩
    exact ⟨(parts x hx).mpr ⟨hb, hp⟩, hx⟩

/-- the bindings of a pattern take its names from what is free around them -/
theorem free_bindAll_bindings (p : Pattern String) (v b : Core String) :
    (Core.bindAll (p.bindings v) b).free = v.free ∪ (b.free \ p.boundNames.toFinset) := by
  rw [bindings_eq_cons, Core.bindAll_cons, Core.free, free_bindAll_projections]

/-! ## names that no pattern synthesizes -/

/-- the name is not the one of a wildcard or of a tuple pattern -/
def Apart (x : String) : Prop := ∀ p : Pattern String, p.isAtomic = false → x ≠ p.wholeName

mutual

theorem mem_partBindings {x : String} (hx : Apart x) (v : Core String) :
    ∀ p : Pattern String, x ∈ (p.partBindings v).map (·.1) ↔ x ∈ p.binders
  | name n => by simp [partBindings, binders]
  | wildcard => by simp [partBindings, binders]
  | tuple ps => by
    have hps := mem_itemBindings hx (tuple ps).wholeName 0 ps
    rw [partBindings, List.map_cons, List.mem_cons, hps, binders]
    exact or_iff_right (hx (tuple ps) rfl)

theorem mem_itemBindings {x : String} (hx : Apart x) (w : String) :
    ∀ (i : Nat) (ps : List (Pattern String)), x ∈ (itemBindings w i ps).map (·.1) ↔ x ∈ bindersAll ps
  | _, [] => by simp [itemBindings, bindersAll]
  | i, p :: ps => by
    rw [itemBindings, List.map_append, List.mem_append, bindersAll, List.mem_append,
      mem_partBindings hx _ p, mem_itemBindings hx w (i + 1) ps]

end

theorem mem_boundNames {x : String} (hx : Apart x) (p : Pattern String) :
    x ∈ p.boundNames ↔ x ∈ p.binders := by
  cases p with
  | name n => exact Iff.rfl
  | wildcard =>
    refine iff_of_false ?_ List.not_mem_nil
    exact fun h => hx wildcard rfl (List.mem_singleton.mp h)
  | tuple ps => exact mem_partBindings hx .nil (tuple ps)

/-- where all free names are the user's, a pattern binds its binders and nothing else -/
theorem sdiff_boundNames {s : Finset String} (hs : ∀ x ∈ s, Apart x) (p : Pattern String) :
    s \ p.boundNames.toFinset = s \ p.binders.toFinset := by
  ext x
  simp only [Finset.mem_sdiff, List.mem_toFinset]
  exact and_congr_right fun hx => not_congr (mem_boundNames (hs x hx) p)

theorem sdiff_boundNames_wholeName (p : Pattern String) :
    (Core.var p.wholeName).free \ p.boundNames.toFinset = ∅ := by
  simp [Core.free, boundNames]

end Pattern

/-- an identifier holds no bracket and is not the wildcard -/
theorem Identifier.apart {x : String} (h : Identifier x) : Pattern.Apart x := by
  intro p hp hx
  cases p with
  | name n => cases hp
  | wildcard => exact h.not_wildcard hx
  | tuple ps =>
    have hmem : '[' ∈ x.toList := by
      rw [hx, Pattern.wholeName]
      simp
    have hchar := h.text.atomChars '[' hmem
    revert hchar
    decide

end TraceFront
