import TraceFront.Text.Spaced
import TraceFront.Tree.Address
import TraceFront.Tree.Value

/-!
# Trace trees

A node has an optional type tag, an optional terminal value, and children that are either named
fields or a sequence counted from zero.  A node's address is the only identity that it has.

* `Node.leaf`, `Node.keyed`, `Node.sequence`   the ways in which nodes are built;
* `Node.isWellFormed`                          what every built node has to satisfy;
* `Node.get?`                                  the node at an address;
* `Node.walk`                                  every node with its address, a parent before its
                                               children and children in order;
* `Node.size`                                  the number of nodes;
* `Node.render`                                the tree as indented lines;
* `Node.beq`                                   equality of trees, which decides it.
-/

namespace TraceFront

/-- how a node holds its children -/
inductive Children (α : Type) where
  | none
  | keyed (fields : List (String × α))
  | sequence (items : List α)
deriving Inhabited

def Children.length {α : Type} : Children α → Nat
  | none => 0
  | keyed fs => fs.length
  | sequence ns => ns.length

def Children.isEmpty {α : Type} (c : Children α) : Bool := c.length == 0

structure Node where
  tag : Option String
  value : Option Value
  children : Children Node
deriving Inhabited

namespace Node

/-! ## construction -/

/-- an untagged node that holds a value -/
def leaf (v : Value) : Node := ⟨none, some v, .none⟩

/-- a tagged node with named fields; without any it has no children -/
def keyed (tag : String) (fields : List (String × Node)) : Node :=
  ⟨some tag, none, if fields.isEmpty then .none else .keyed fields⟩

def sequence (tag : String) (items : List Node) : Node := ⟨some tag, none, .sequence items⟩

/-! ## observation -/

def hasTag (n : Node) (tag : String) : Bool := n.tag == some tag

def isLeaf (n : Node) : Bool := n.children.isEmpty && n.value.isSome

/-- the names of the fields in order, none for other children -/
def fieldNames (n : Node) : List String :=
  match n.children with
  | .keyed fs => fs.map (·.1)
  | _ => []

/-- the child under a name, the first one of that name -/
def field? (n : Node) (name : String) : Option Node :=
  match n.children with
  | .keyed fs => fs.lookup name
  | _ => none

def index? (n : Node) (i : Nat) : Option Node :=
  match n.children with
  | .sequence ns => ns[i]?
  | _ => none

def child? (n : Node) : Key → Option Node
  | .field name => n.field? name
  | .index i => n.index? i

/-- the node that a path of keys leads to -/
def follow (n : Node) : List Key → Option Node
  | [] => some n
  | k :: ks =>
    match n.child? k with
    | some m => m.follow ks
    | none => none

def get? (n : Node) (a : Address) : Option Node := n.follow a.keys

/-- a tag is not empty; a node without a tag holds a value and has no children; the names of fields
are not empty and differ from one another -/
def isWellFormed (n : Node) : Bool :=
  (match n.tag with
    | some tag => tag != ""
    | none => n.value.isSome && n.children.isEmpty) &&
  (match n.children with
    | .keyed fs => fs.all (·.1 != "") && decide (fs.map (·.1)).Nodup
    | _ => true)

/-! ## size -/

mutual

/-- the number of nodes, by recursion on the tree -/
def count : Node → Nat
  | ⟨_, _, c⟩ => countChildren c + 1

def countChildren : Children Node → Nat
  | .none => 0
  | .keyed fs => countFields fs
  | .sequence ns => countItems ns

def countFields : List (String × Node) → Nat
  | [] => 0
  | (_, n) :: fs => n.count + countFields fs

def countItems : List Node → Nat
  | [] => 0
  | n :: ns => n.count + countItems ns

end

/-! ## traversal -/

/-- the items of a sequence with their addresses, from position `i` on -/
def itemEntries (a : Address) (i : Nat) : List Node → List (Address × Node)
  | [] => []
  | n :: ns => (a.child (.index i), n) :: itemEntries a (i + 1) ns

/-- the children of a node at `a`, with their addresses -/
def entries (a : Address) (n : Node) : List (Address × Node) :=
  match n.children with
  | .none => []
  | .keyed fs => fs.map fun f => (a.child (.field f.1), f.2)
  | .sequence ns => itemEntries a 0 ns

/-- the number of nodes in a list of trees -/
def pending : List (Address × Node) → Nat
  | [] => 0
  | e :: stack => e.2.count + pending stack

theorem pending_cons (e : Address × Node) (stack : List (Address × Node)) :
    pending (e :: stack) = e.2.count + pending stack := rfl

theorem pending_append (s t : List (Address × Node)) :
    pending (s ++ t) = pending s + pending t := by
  induction s with
  | nil => simp [pending]
  | cons e s ih => simp only [List.cons_append, pending_cons, ih, Nat.add_assoc]

theorem pending_fields (a : Address) (fs : List (String × Node)) :
    pending (fs.map fun f => (a.child (.field f.1), f.2)) = countFields fs := by
  induction fs with
  | nil => rfl
  | cons f fs ih => simp only [List.map_cons, pending_cons, ih, countFields]

theorem pending_itemEntries (a : Address) (i : Nat) (ns : List Node) :
    pending (itemEntries a i ns) = countItems ns := by
  induction ns generalizing i with
  | nil => rfl
  | cons n ns ih => simp only [itemEntries, pending_cons, ih, countItems]

theorem pending_entries (a : Address) (n : Node) : pending (n.entries a) + 1 = n.count := by
  obtain ⟨_, _, c⟩ := n
  cases c with
  | none => rfl
  | keyed fs => simp only [entries, pending_fields, count, countChildren]
  | sequence ns => simp only [entries, pending_itemEntries, count, countChildren]

/-- visits the trees of a stack: the first one's root, then its children, then the others -/
def walkStack : List (Address × Node) → List (Address × Node)
  | [] => []
  | (a, n) :: rest => (a, n) :: walkStack (n.entries a ++ rest)
termination_by stack => pending stack
decreasing_by
  have := pending_entries a n
  simp only [pending_append, pending_cons]
  omega

/-- every node with its address, a parent before its children and children in order -/
def walk (n : Node) : List (Address × Node) := walkStack [(.root, n)]

def size (n : Node) : Nat := n.walk.length

/-! ## text -/

def headline (n : Node) : String :=
  match n.tag, n.value with
  | some t, some v => t ++ " " ++ v.render
  | some t, none => t
  | none, some v => v.render
  | none, none => "?"

/-- the line of the node at an address: two blanks for each step down, the last key, and what the
node holds -/
def line (a : Address) (n : Node) : String :=
  let label := match a.keys.getLast? with
    | some k => k.render ++ ": "
    | none => ""
  Text.repeated ' ' (2 * a.length) ++ label ++ n.headline

/-- the tree with one node in a line -/
def render (n : Node) : String := "\n".intercalate (n.walk.map fun e => line e.1 e.2)

/-! ## equality -/

mutual

/-- equality of trees, floating-point values being compared by their bits -/
def beq : Node → Node → Bool
  | ⟨t, v, c⟩, ⟨t', v', c'⟩ => t == t' && v == v' && beqChildren c c'
termination_by structural n => n

def beqChildren : Children Node → Children Node → Bool
  | .none, .none => true
  | .keyed fs, .keyed gs => beqFields fs gs
  | .sequence ns, .sequence ms => beqItems ns ms
  | _, _ => false

def beqFields : List (String × Node) → List (String × Node) → Bool
  | [], [] => true
  | (k, n) :: fs, (k', n') :: gs => k == k' && beq n n' && beqFields fs gs
  | _, _ => false

def beqItems : List Node → List Node → Bool
  | [], [] => true
  | n :: ns, m :: ms => beq n m && beqItems ns ms
  | _, _ => false

end

mutual

theorem eq_of_beq : ∀ (n m : Node), beq n m = true → n = m
  | ⟨t, v, c⟩, ⟨t', v', c'⟩, h => by
    simp only [beq, Bool.and_eq_true, beq_iff_eq] at h
    obtain ⟨⟨rfl, rfl⟩, hc⟩ := h
    rw [eq_of_beqChildren c c' hc]

theorem eq_of_beqChildren : ∀ (c d : Children Node), beqChildren c d = true → c = d
  | .none, .none, _ => rfl
  | .keyed fs, .keyed gs, h => by rw [eq_of_beqFields fs gs h]
  | .sequence ns, .sequence ms, h => by rw [eq_of_beqItems ns ms h]
  | .none, .keyed _, h | .none, .sequence _, h => by simp [beqChildren] at h
  | .keyed _, .none, h | .keyed _, .sequence _, h => by simp [beqChildren] at h
  | .sequence _, .none, h | .sequence _, .keyed _, h => by simp [beqChildren] at h

theorem eq_of_beqFields : ∀ (fs gs : List (String × Node)), beqFields fs gs = true → fs = gs
  | [], [], _ => rfl
  | (k, n) :: fs, (k', n') :: gs, h => by
    simp only [beqFields, Bool.and_eq_true, beq_iff_eq] at h
    rw [h.1.1, eq_of_beq n n' h.1.2, eq_of_beqFields fs gs h.2]
  | [], _ :: _, h | _ :: _, [], h => by simp [beqFields] at h

theorem eq_of_beqItems : ∀ (ns ms : List Node), beqItems ns ms = true → ns = ms
  | [], [], _ => rfl
  | n :: ns, m :: ms, h => by
    simp only [beqItems, Bool.and_eq_true] at h
    rw [eq_of_beq n m h.1, eq_of_beqItems ns ms h.2]
  | [], _ :: _, h | _ :: _, [], h => by simp [beqItems] at h

end

mutual

theorem beq_self : ∀ n : Node, beq n n = true
  | ⟨_, _, c⟩ => by simp [beq, beqChildren_self c]

theorem beqChildren_self : ∀ c : Children Node, beqChildren c c = true
  | .none => rfl
  | .keyed fs => beqFields_self fs
  | .sequence ns => beqItems_self ns

theorem beqFields_self : ∀ fs : List (String × Node), beqFields fs fs = true
  | [] => rfl
  | (_, n) :: fs => by simp [beqFields, beq_self n, beqFields_self fs]

theorem beqItems_self : ∀ ns : List Node, beqItems ns ns = true
  | [] => rfl
  | n :: ns => by simp [beqItems, beq_self n, beqItems_self ns]

end

instance : DecidableEq Node := fun n m =>
  decidable_of_bool (beq n m) ⟨eq_of_beq n m, fun h => h ▸ beq_self n⟩

end Node

end TraceFront
