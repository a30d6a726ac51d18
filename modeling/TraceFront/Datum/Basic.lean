import TraceFront.Span
import TraceFront.Text.Spaced
import TraceFront.Literal

/-!
# Datums

A datum is a term of the surface language before any form is recognized in it: a literal, a symbol,
or a list or vector of datums, each with the place where it stands.  The type of its names is a
parameter, as for literals.

* `Datum.span`       where the datum stands;
* `Datum.symbol?`    the name of a symbol;
* `Datum.map`        another representation of the names;
* `Datum.render`     the surface text of a datum;
* `Datum.decEq`      equality of datums is decided part by part.
-/

namespace TraceFront

/-- a surface term with names of type `ν` -/
inductive Datum (ν : Type) where
  | literal (value : Literal ν) (span : Span)
  | symbol (name : ν) (span : Span)
  | list (items : List (Datum ν)) (span : Span)
  | vector (items : List (Datum ν)) (span : Span)
deriving Inhabited

namespace Datum

variable {ν μ : Type}

def span : Datum ν → Span
  | literal _ s => s
  | symbol _ s => s
  | list _ s => s
  | vector _ s => s

def symbol? : Datum ν → Option ν
  | symbol n _ => some n
  | _ => none

mutual

def map (f : ν → μ) : Datum ν → Datum μ
  | literal l s => literal (l.map f) s
  | symbol n s => symbol (f n) s
  | list ds s => list (mapAll f ds) s
  | vector ds s => vector (mapAll f ds) s

def mapAll (f : ν → μ) : List (Datum ν) → List (Datum μ)
  | [] => []
  | d :: ds => d.map f :: mapAll f ds

end

mutual

def render : Datum String → String
  | literal l _ => l.render
  | symbol n _ => n
  | list ds _ => Text.parenthesized (renderAll ds)
  | vector ds _ => Text.bracketed (renderAll ds)

def renderAll : List (Datum String) → List String
  | [] => []
  | d :: ds => d.render :: renderAll ds

end

section
variable [DecidableEq ν]

mutual

def decEq : (d e : Datum ν) → Decidable (d = e)
  | literal l s, literal l' s' => decidable_of_decidable_of_iff (p := l = l' ∧ s = s') (by simp)
  | symbol n s, symbol n' s' => decidable_of_decidable_of_iff (p := n = n' ∧ s = s') (by simp)
  | list ds s, list es s' =>
    have := decEqAll ds es
    decidable_of_decidable_of_iff (p := ds = es ∧ s = s') (by simp)
  | vector ds s, vector es s' =>
    have := decEqAll ds es
    decidable_of_decidable_of_iff (p := ds = es ∧ s = s') (by simp)
  | literal _ _, symbol _ _ | literal _ _, list _ _ | literal _ _, vector _ _ => .isFalse nofun
  | symbol _ _, literal _ _ | symbol _ _, list _ _ | symbol _ _, vector _ _ => .isFalse nofun
  | list _ _, literal _ _ | list _ _, symbol _ _ | list _ _, vector _ _ => .isFalse nofun
  | vector _ _, literal _ _ | vector _ _, symbol _ _ | vector _ _, list _ _ => .isFalse nofun

def decEqAll : (ds es : List (Datum ν)) → Decidable (ds = es)
  | [], [] => .isTrue rfl
  | d :: ds, e :: es =>
    have := decEq d e
    have := decEqAll ds es
    decidable_of_decidable_of_iff (p := d = e ∧ ds = es) (by simp)
  | [], _ :: _ | _ :: _, [] => .isFalse nofun

end

instance : DecidableEq (Datum ν) := decEq

end

@[simp] theorem span_map (f : ν → μ) (d : Datum ν) : (d.map f).span = d.span := by cases d <;> rfl

theorem mapAll_eq_map (f : ν → μ) (ds : List (Datum ν)) : mapAll f ds = ds.map (Datum.map f) := by
  induction ds with
  | nil => rfl
  | cons d ds ih => simp [mapAll, ih]

theorem renderAll_eq_map (ds : List (Datum String)) : renderAll ds = ds.map render := by
  induction ds with
  | nil => rfl
  | cons d ds ih => simp [renderAll, ih]

end Datum

end TraceFront
