import TraceFront.Text.Spaced
import TraceFront.Literal
import TraceFront.Vocabulary

/-!
# The core calculus

What is left of the surface language when blocks and patterns are gone: every binder is a single
name.  The type of names is a parameter, as for literals.

* `Core`          the terms;
* `Core.map`      another representation of the names;
* `Core.names`    the names in a term, from left to right;
* `Core.render`   the text of a term.
-/

namespace TraceFront

inductive Core (ν : Type) where
  /-- the value of an empty block -/
  | nil
  | literal (value : Literal ν)
  | var (name : ν)
  /-- the enclosing procedure -/
  | this
  | lambda (param : ν) (body : Core ν)
  | conditional (predicate consequent alternative : Core ν)
  /-- one name, bound in `body` -/
  | bind (name : ν) (value body : Core ν)
  /-- functions that see one another, bound in `body` -/
  | bindGroup (bindings : List (ν × Core ν)) (body : Core ν)
  /-- terms one after the other; the value is that of the last -/
  | sequence (items : List (Core ν))
  | apply (function : Core ν) (arguments : List (Core ν))
  | tuple (items : List (Core ν))
  /-- one component of a tuple -/
  | project (target : Core ν) (index : Nat)
  | withAddress (tag inner : Core ν)
  | splice (inner : Core ν)
  | unquote (inner : Core ν)
deriving Inhabited

namespace Core

variable {ν μ : Type}

/-- the bindings one inside the other around a term, the first one outermost -/
def bindAll (bindings : List (ν × Core ν)) (body : Core ν) : Core ν :=
  bindings.foldr (fun b rest => .bind b.1 b.2 rest) body

@[simp] theorem bindAll_nil (body : Core ν) : bindAll [] body = body := rfl

@[simp] theorem bindAll_cons (b : ν × Core ν) (bs : List (ν × Core ν)) (body : Core ν) :
    bindAll (b :: bs) body = .bind b.1 b.2 (bindAll bs body) := rfl

/-! ## names -/

mutual

def map (f : ν → μ) : Core ν → Core μ
  | nil => nil
  | literal l => literal (l.map f)
  | var n => var (f n)
  | this => this
  | lambda p b => lambda (f p) (b.map f)
  | conditional p t e => conditional (p.map f) (t.map f) (e.map f)
  | bind n v b => bind (f n) (v.map f) (b.map f)
  | bindGroup bs b => bindGroup (mapBindings f bs) (b.map f)
  | sequence cs => sequence (mapAll f cs)
  | apply g cs => apply (g.map f) (mapAll f cs)
  | tuple cs => tuple (mapAll f cs)
  | project c i => project (c.map f) i
  | withAddress t c => withAddress (t.map f) (c.map f)
  | splice c => splice (c.map f)
  | unquote c => unquote (c.map f)

def mapAll (f : ν → μ) : List (Core ν) → List (Core μ)
  | [] => []
  | c :: cs => c.map f :: mapAll f cs

def mapBindings (f : ν → μ) : List (ν × Core ν) → List (μ × Core μ)
  | [] => []
  | (n, c) :: bs => (f n, c.map f) :: mapBindings f bs

end

mutual

def names : Core ν → List ν
  | nil => []
  | literal l => l.names
  | var n => [n]
  | this => []
  | lambda p b => p :: b.names
  | conditional p t e => p.names ++ t.names ++ e.names
  | bind n v b => n :: (v.names ++ b.names)
  | bindGroup bs b => namesBindings bs ++ b.names
  | sequence cs => namesAll cs
  | apply g cs => g.names ++ namesAll cs
  | tuple cs => namesAll cs
  | project c _ => c.names
  | withAddress t c => t.names ++ c.names
  | splice c => c.names
  | unquote c => c.names

def namesAll : List (Core ν) → List ν
  | [] => []
  | c :: cs => c.names ++ namesAll cs

def namesBindings : List (ν × Core ν) → List ν
  | [] => []
  | (n, c) :: bs => n :: (c.names ++ namesBindings bs)

end

/-! ## text -/

mutual

def render : Core String → String
  | nil => "nil"
  | literal l => l.render
  | var n => n
  | this => Vocabulary.selfReference
  | lambda p b => Text.parenthesized ["fn", p, b.render]
  | conditional p t e => Text.parenthesized ["if", p.render, t.render, e.render]
  | bind n v b => Text.parenthesized ["let", Text.bracketed [n, v.render], b.render]
  | bindGroup bs b => Text.parenthesized ["letrec", Text.bracketed (renderBindings bs), b.render]
  | sequence cs => Text.parenthesized ("do" :: renderAll cs)
  | apply f cs => Text.parenthesized (f.render :: renderAll cs)
  | tuple cs => Text.parenthesized ("tuple" :: renderAll cs)
  | project c i => Text.parenthesized ["nth", c.render, i.repr]
  | withAddress t c => Text.parenthesized ["with-address", t.render, c.render]
  | splice c => Text.parenthesized ["splice", c.render]
  | unquote c => Text.parenthesized ["unquote", c.render]

def renderAll : List (Core String) → List String
  | [] => []
  | c :: cs => c.render :: renderAll cs

def renderBindings : List (String × Core String) → List String
  | [] => []
  | (n, c) :: bs => n :: c.render :: renderBindings bs

end

theorem mapAll_eq_map (f : ν → μ) (cs : List (Core ν)) : mapAll f cs = cs.map (Core.map f) := by
  induction cs with
  | nil => rfl
  | cons c cs ih => simp [mapAll, ih]

theorem mapBindings_eq_map (f : ν → μ) (bs : List (ν × Core ν)) :
    mapBindings f bs = bs.map fun b => (f b.1, b.2.map f) := by
  induction bs with
  | nil => rfl
  | cons b bs ih => simp [mapBindings, ih]

theorem namesAll_eq_flatMap (cs : List (Core ν)) : namesAll cs = cs.flatMap names := by
  induction cs with
  | nil => rfl
  | cons c cs ih => simp [namesAll, ih]

theorem renderAll_eq_map (cs : List (Core String)) : renderAll cs = cs.map render := by
  induction cs with
  | nil => rfl
  | cons c cs ih => simp [renderAll, ih]

end Core

end TraceFront
