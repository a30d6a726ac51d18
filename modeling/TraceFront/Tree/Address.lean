import TraceFront.Number.Integer
import TraceFront.Text.Segments

/-!
# Addresses

An address is the path from the root of a tree to one of its nodes.  It is written as its keys with
slashes between them, and the root as a single slash.  When an address is read, segments without
characters are dropped, and a segment that spells a position below `2^64` is a position.

* `Key.compare`, `Address.compare`   fields come before positions, a path before its extensions;
* `Address.render`                   the text of an address;
* `Address.ofText`                   the address that a text spells.
-/

namespace TraceFront

/-- one step down a tree -/
inductive Key where
  | field (name : String)
  | index (position : Nat)
deriving DecidableEq, Inhabited

namespace Key

def render : Key → String
  | field n => n
  | index i => i.repr

/-- fields by their text, then positions by their value -/
def compare : Key → Key → Ordering
  | field a, field b => compareOfLessAndEq a b
  | field _, index _ => .lt
  | index _, field _ => .gt
  | index a, index b => compareOfLessAndEq a b

def ofSegment (cs : List Char) : Key :=
  match Number.readIndex? cs with
  | some i => .index i
  | none => .field (String.ofList cs)

end Key

/-- a path from the root of a tree -/
structure Address where
  keys : List Key
deriving DecidableEq, Inhabited

namespace Address

def root : Address := ⟨[]⟩

def child (a : Address) (k : Key) : Address := ⟨a.keys ++ [k]⟩

def length (a : Address) : Nat := a.keys.length

def isRoot (a : Address) : Bool := a.keys.isEmpty

def parent? (a : Address) : Option Address :=
  if a.isRoot then none else some ⟨a.keys.dropLast⟩

def render (a : Address) : String :=
  if a.isRoot then "/" else "/".intercalate (a.keys.map Key.render)

def ofText (s : String) : Address :=
  ⟨((Text.segments '/' s.toList).filter (!·.isEmpty)).map Key.ofSegment⟩

/-- step by step, a path before its extensions -/
def compare (a b : Address) : Ordering := List.compareLex Key.compare a.keys b.keys

def sort (as : List Address) : List Address :=
  as.mergeSort fun a b => (compare a b).isLE

theorem parent?_child (a : Address) (k : Key) : (a.child k).parent? = some a := by
  simp [parent?, child, isRoot]

end Address

end TraceFront
