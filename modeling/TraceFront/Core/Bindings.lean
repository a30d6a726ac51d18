import TraceFront.Core.Basic
import TraceFront.Pattern

/-!
# Patterns as bindings

A tuple pattern binds its whole value to a synthesized name and then each part that is not a
wildcard to a projection of that name:

```text
[a [b _] c] = rhs

[a|[b|_]|c] = rhs
a           = (nth [a|[b|_]|c] 0)
[b|_]       = (nth [a|[b|_]|c] 1)
b           = (nth [b|_] 0)
c           = (nth [a|[b|_]|c] 2)
```

Synthesized names hold a bracket, which no symbol does, and the reserved separator, which no
identifier does.

* `Pattern.partBindings`   the bindings of a pattern inside a larger one;
* `Pattern.bindings`       the bindings of a pattern and a value, the whole value first;
* `Pattern.projections`    the same without the whole value.
-/

namespace TraceFront

namespace Pattern

mutual

/-- the bindings of a pattern inside a larger one; a wildcard binds nothing -/
def partBindings (value : Core String) : Pattern String → List (String × Core String)
  | name n => [(n, value)]
  | wildcard => []
  | tuple ps =>
    let whole := (tuple ps).wholeName
    (whole, value) :: itemBindings whole 0 ps

/-- the bindings of the parts of a tuple that is bound to `whole`, from position `index` on -/
def itemBindings (whole : String) (index : Nat) :
    List (Pattern String) → List (String × Core String)
  | [] => []
  | p :: ps => partBindings (.project (.var whole) index) p ++ itemBindings whole (index + 1) ps

end

/-- the bindings of a pattern and a value.  A wildcard that stands alone binds its own spelling, so
that the value is still evaluated. -/
def bindings (p : Pattern String) (value : Core String) : List (String × Core String) :=
  match p with
  | wildcard => [(Vocabulary.wildcard, value)]
  | p => partBindings value p

/-- the bindings of the parts of a pattern whose whole value is bound already -/
def projections (p : Pattern String) : List (String × Core String) :=
  match p with
  | tuple ps => itemBindings (tuple ps).wholeName 0 ps
  | _ => []

theorem bindings_tuple (ps : List (Pattern String)) (value : Core String) :
    (tuple ps).bindings value = ((tuple ps).wholeName, value) :: (tuple ps).projections := rfl

end Pattern

end TraceFront
