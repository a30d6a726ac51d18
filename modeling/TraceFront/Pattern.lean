import TraceFront.Text.Spaced
import TraceFront.Vocabulary

/-!
# Binding patterns

A pattern is a name, the wildcard, or a tuple of patterns.  A tuple pattern binds its whole value to
a synthesized name: the names of its parts in square brackets, joined by the reserved separator.
The type of names is a parameter, as for literals.

* `Pattern.map`         another representation of the names;
* `Pattern.binders`     the names that a pattern binds, from left to right;
* `Pattern.wholeName`   the name that a pattern binds its whole value to;
* `Pattern.render`      the surface text of a pattern.
-/

namespace TraceFront

/-- what a value is bound to -/
inductive Pattern (ν : Type) where
  | name (name : ν)
  | wildcard
  | tuple (items : List (Pattern ν))
deriving Inhabited

namespace Pattern

variable {ν μ : Type}

/-- the pattern is a single name -/
def isAtomic : Pattern ν → Bool
  | name _ => true
  | _ => false

mutual

def map (f : ν → μ) : Pattern ν → Pattern μ
  | name n => name (f n)
  | wildcard => wildcard
  | tuple ps => tuple (mapAll f ps)

def mapAll (f : ν → μ) : List (Pattern ν) → List (Pattern μ)
  | [] => []
  | p :: ps => p.map f :: mapAll f ps

end

mutual

/-- the names that a pattern binds, from left to right -/
def binders : Pattern ν → List ν
  | name n => [n]
  | wildcard => []
  | tuple ps => bindersAll ps

def bindersAll : List (Pattern ν) → List ν
  | [] => []
  | p :: ps => p.binders ++ bindersAll ps

end

mutual

def render : Pattern String → String
  | name n => n
  | wildcard => Vocabulary.wildcard
  | tuple ps => Text.bracketed (renderAll ps)

def renderAll : List (Pattern String) → List String
  | [] => []
  | p :: ps => p.render :: renderAll ps

end

mutual

/-- the name that a pattern binds its whole value to -/
def wholeName : Pattern String → String
  | name n => n
  | wildcard => Vocabulary.wildcard
  | tuple ps => "[" ++ Vocabulary.separator.toString.intercalate (wholeNames ps) ++ "]"

def wholeNames : List (Pattern String) → List String
  | [] => []
  | p :: ps => p.wholeName :: wholeNames ps

end

@[simp] theorem isAtomic_map (f : ν → μ) (p : Pattern ν) : (p.map f).isAtomic = p.isAtomic := by
  cases p <;> rfl

theorem bindersAll_eq_flatMap (ps : List (Pattern ν)) : bindersAll ps = ps.flatMap binders := by
  induction ps with
  | nil => rfl
  | cons p ps ih => simp [bindersAll, ih]

theorem renderAll_eq_map (ps : List (Pattern String)) : renderAll ps = ps.map render := by
  induction ps with
  | nil => rfl
  | cons p ps ih => simp [renderAll, ih]

theorem wholeNames_eq_map (ps : List (Pattern String)) : wholeNames ps = ps.map wholeName := by
  induction ps with
  | nil => rfl
  | cons p ps ih => simp [wholeNames, ih]

end Pattern

end TraceFront
