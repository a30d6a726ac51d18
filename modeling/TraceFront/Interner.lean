import Std.Data.HashMap
import TraceFront.Vocabulary

/-!
# Interning of texts

An interner gives each text a number, the same one whenever the text comes again.  It keeps the
texts in the order of their numbers, and an index from texts to numbers; that the two say the same is
part of the structure.  Number zero is the empty text, and the nine words of the forms follow.

* `Interner.intern`    the number of a text, taken in if it is new;
* `Interner.intern?`   the same, with an error when all numbers are taken;
* `Interner.get?`      the number of a text that has one;
* `Interner.textOf`    the text of a number, empty for a number that is not taken.
-/

namespace TraceFront

/-- the number of an interned text -/
structure Name where
  raw : Nat
deriving DecidableEq, Inhabited

namespace Name

/-- the number of the empty text -/
def empty : Name := ⟨0⟩

def render (n : Name) : String := "Name(" ++ n.raw.repr ++ ")"

end Name

/-- texts in the order of their numbers, and the numbers of texts -/
structure InternTable where
  texts : Array String
  index : Std.HashMap String Nat

namespace InternTable

/-- the index and the texts say the same -/
def Agrees (t : InternTable) : Prop :=
  ∀ (s : String) (i : Nat), t.index[s]? = some i ↔ t.texts[i]? = some s

def intern (t : InternTable) (s : String) : Name × InternTable :=
  match t.index[s]? with
  | some i => (⟨i⟩, t)
  | none => (⟨t.texts.size⟩, ⟨t.texts.push s, t.index.insert s t.texts.size⟩)

/-- a text is there already, or it is new and gets the next number -/
theorem intern_cases (t : InternTable) (s : String) :
    (∃ i, t.index[s]? = some i ∧ t.intern s = (⟨i⟩, t)) ∨
    (t.index[s]? = none ∧
      t.intern s = (⟨t.texts.size⟩, ⟨t.texts.push s, t.index.insert s t.texts.size⟩)) := by
  unfold intern
  cases h : t.index[s]? with
  | some i => exact .inl ⟨i, rfl, rfl⟩
  | none => exact .inr ⟨rfl, rfl⟩

theorem Agrees.intern {t : InternTable} (ht : t.Agrees) (s : String) : (t.intern s).2.Agrees := by
  rcases t.intern_cases s with ⟨i, _, h⟩ | ⟨hnew, h⟩
  · rw [h]
    exact ht
  · rw [h]
    intro u i
    show (t.index.insert s t.texts.size)[u]? = some i ↔ (t.texts.push s)[i]? = some u
    rw [Std.HashMap.getElem?_insert, Array.getElem?_push]
    by_cases hu : s = u
    · subst hu
      -- the new text has no other number
      have hother : t.texts[i]? ≠ some s := by
        intro hi
        rw [(ht s i).mpr hi] at hnew
        cases hnew
      by_cases hi : i = t.texts.size
      · simp [hi]
      · simpa [hi, Ne.symm hi] using hother
    · by_cases hi : i = t.texts.size
      · have hfree : t.index[u]? ≠ some i := by
          rw [hi, Ne, ht]
          simp
        simpa [hu, hi] using hi ▸ hfree
      · simpa [hu, hi] using ht u i

end InternTable

structure Interner extends InternTable where
  agree : toInternTable.Agrees

/-- all numbers are taken by `count` texts -/
inductive InternError where
  | overflow (count : Nat)
deriving DecidableEq

namespace InternError

def maxRaw : Nat := 0xffffffff

def message : InternError → String
  | overflow count =>
    "interner exceeded capacity: " ++ count.repr ++ " strings, max is " ++ maxRaw.repr

end InternError

namespace Interner

def blank : Interner := ⟨⟨#[], ∅⟩, by simp [InternTable.Agrees]⟩

/-- the number of a text, which is taken in if it is new -/
def intern (t : Interner) (s : String) : Name × Interner :=
  ((t.toInternTable.intern s).1, ⟨(t.toInternTable.intern s).2, t.agree.intern s⟩)

def internAll (t : Interner) (ss : List String) : Interner :=
  ss.foldl (fun t s => (t.intern s).2) t

/-- the empty text and the words of the forms -/
def empty : Interner := blank.internAll ("" :: Vocabulary.words)

def get? (t : Interner) (s : String) : Option Name := (t.index[s]?).map Name.mk

/-- the number of a text, or an error if it is new and all numbers are taken -/
def intern? (t : Interner) (s : String) : Except InternError (Name × Interner) :=
  if (t.get? s).isNone && InternError.maxRaw < t.texts.size then .error (.overflow t.texts.size)
  else .ok (t.intern s)

def textOf (t : Interner) (n : Name) : String := t.texts[n.raw]?.getD ""

def length (t : Interner) : Nat := t.texts.size

/-- at most the empty text is there -/
def isEmpty (t : Interner) : Bool := t.length ≤ 1

/-- the number of a text that is expected to have one -/
def nameOf (t : Interner) (s : String) : Name := (t.get? s).getD .empty

end Interner

end TraceFront
