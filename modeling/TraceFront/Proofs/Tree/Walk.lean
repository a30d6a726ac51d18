import Mathlib.Algebra.GroupWithZero.Nat
import Mathlib.Data.List.Nodup
import TraceFront.Proofs.Tree.Conforming

/-!
# The walk over a tree

The walk keeps the trees that are still to be visited on a stack.  It visits the same nodes, in the
same order, as the recursion on the tree:

* `Node.walkStack_push`    a step of the walk on its stack;
* `Node.visit`             every node with its address by recursion, a parent before its children;
* `Node.walk_eq_visit`     the walk is this list;
* `Node.all_iff_walk`      a property of all nodes is a property of what the walk visits;
* `Node.mem_walk_iff`      the walk visits a node under an address exactly if the address leads to it;
* `Node.nodup_walk`        no address is visited twice;
* `Node.size_eq_sum`       a tree has one node more than its parts;
* `Node.walk_and_get_agree`   all of this together.

That the walk and the look-up agree asks that no node has two fields of one name: an address leads to
the first of them only.
-/

set_option linter.unusedSectionVars false

namespace TraceFront

namespace Node

section
variable {motive : Node → Prop} (step : ∀ n, (∀ m ∈ n.parts, motive m) → motive n)
include step

mutual

theorem partInduction : ∀ n, motive n
  | ⟨t, v, .none⟩ => step ⟨t, v, .none⟩ (List.forall_mem_nil _)
  | ⟨t, v, .keyed fs⟩ =>
    step ⟨t, v, .keyed fs⟩ (List.forall_mem_map.mpr (partInductionFields fs))
  | ⟨t, v, .sequence ns⟩ => step ⟨t, v, .sequence ns⟩ (partInductionItems ns)

theorem partInductionFields : ∀ fs : List (String × Node), ∀ f ∈ fs, motive f.2
  | [] => List.forall_mem_nil _
  | (_, n) :: fs => List.forall_mem_cons.mpr ⟨partInduction n, partInductionFields fs⟩

theorem partInductionItems : ∀ ns : List Node, ∀ n ∈ ns, motive n
  | [] => List.forall_mem_nil _
  | n :: ns => List.forall_mem_cons.mpr ⟨partInduction n, partInductionItems ns⟩

end

end

/-! ## the recursive traversal -/

mutual

/-- every node of the tree `n` at `a` with its address, parents first -/
def visit (a : Address) : Node → List (Address × Node)
  | ⟨t, v, .none⟩ => [(a, ⟨t, v, .none⟩)]
  | ⟨t, v, .keyed fs⟩ => (a, ⟨t, v, .keyed fs⟩) :: visitFields a fs
  | ⟨t, v, .sequence ns⟩ => (a, ⟨t, v, .sequence ns⟩) :: visitItems a 0 ns

def visitFields (a : Address) : List (String × Node) → List (Address × Node)
  | [] => []
  | (k, n) :: fs => visit (a.child (.field k)) n ++ visitFields a fs

def visitItems (a : Address) (i : Nat) : List Node → List (Address × Node)
  | [] => []
  | n :: ns => visit (a.child (.index i)) n ++ visitItems a (i + 1) ns

end

theorem visitFields_eq (a : Address) (fs : List (String × Node)) :
    visitFields a fs =
      (fs.map fun f => (a.child (.field f.1), f.2)).flatMap fun e => e.2.visit e.1 := by
  induction fs with
  | nil => rfl
  | cons f fs ih => rw [visitFields, ih, List.map_cons, List.flatMap_cons]

theorem visitItems_eq (a : Address) (i : Nat) (ns : List Node) :
    visitItems a i ns = (itemEntries a i ns).flatMap fun e => e.2.visit e.1 := by
  induction ns generalizing i with
  | nil => rfl
  | cons n ns ih => rw [visitItems, ih, itemEntries, List.flatMap_cons]

theorem visit_eq (a : Address) (n : Node) :
    n.visit a = (a, n) :: (n.entries a).flatMap fun e => e.2.visit e.1 := by
  obtain ⟨t, v, c⟩ := n
  cases c with
  | none => rfl
  | keyed fs => rw [visit, visitFields_eq]; rfl
  | sequence ns => rw [visit, visitItems_eq]; rfl

/-- a step takes the top of the stack and pushes its children one by one, the last one first -/
theorem walkStack_push (a : Address) (n : Node) (stack : List (Address × Node)) :
    walkStack ((a, n) :: stack) =
      (a, n) :: walkStack ((n.entries a).reverse.foldl (fun stack e => e :: stack) stack) := by
  rw [walkStack, List.foldl_reverse, List.foldr_cons_eq_append']

theorem walkStack_eq (stack : List (Address × Node)) :
    walkStack stack = stack.flatMap fun e => e.2.visit e.1 := by
  induction stack using walkStack.induct with
  | case1 => rw [walkStack, List.flatMap_nil]
  | case2 a n rest ih =>
    rw [walkStack, ih, List.flatMap_append, List.flatMap_cons, visit_eq, List.cons_append]

theorem walk_eq_visit (n : Node) : n.walk = n.visit .root := by
  rw [walk, walkStack_eq, List.flatMap_singleton]

/-! ## properties of all nodes -/

theorem exists_entry_of_mem_parts (a : Address) {n m : Node} (h : m ∈ n.parts) :
    ∃ b, (b, m) ∈ n.entries a := by
  obtain ⟨t, v, c⟩ := n
  cases c with
  | none => cases h
  | keyed fs =>
    obtain ⟨f, hf, rfl⟩ := List.mem_map.mp h
    exact ⟨a.child (.field f.1), List.mem_map.mpr ⟨f, hf, rfl⟩⟩
  | sequence ns =>
    have hitems : ∀ i, ∃ b, (b, m) ∈ itemEntries a i ns := by
      induction ns with
      | nil => cases h
      | cons n ns ih =>
        intro i
        rcases List.mem_cons.mp h with rfl | h
        · exact ⟨_, List.mem_cons_self⟩
        · obtain ⟨b, hb⟩ := ih h (i + 1)
          exact ⟨b, List.mem_cons_of_mem _ hb⟩
    exact hitems 0

theorem all_of_visit {P : Node → Prop} {n : Node} :
    ∀ {a : Address}, (∀ e ∈ n.visit a, P e.2) → n.All P := by
  induction n using partInduction with
  | step n ih =>
    intro a h
    rw [visit_eq] at h
    obtain ⟨hroot, hrest⟩ := List.forall_mem_cons.mp h
    refine .intro hroot ?_
    intro m hm
    obtain ⟨b, hb⟩ := exists_entry_of_mem_parts a hm
    exact ih m hm fun e he => hrest e (List.mem_flatMap.mpr ⟨(b, m), hb, he⟩)

theorem all_iff_walk {P : Node → Prop} {n : Node} : n.All P ↔ ∀ e ∈ n.walk, P e.2 := by
  constructor
  · exact All.forall_mem_walk
  · intro h
    rw [walk_eq_visit] at h
    exact all_of_visit h

/-! ## addresses -/

/-- no two fields have one name -/
def DistinctFields (n : Node) : Prop := n.fieldNames.Nodup

theorem distinctFields_of_isWellFormed {n : Node} (h : n.isWellFormed = true) :
    n.DistinctFields := by
  obtain ⟨t, v, c⟩ := n
  cases c with
  | none => exact List.nodup_nil
  | sequence ns => exact List.nodup_nil
  | keyed fs =>
    have hfields := (Bool.and_eq_true_iff.mp h).2
    have hnodup : (fs.map (·.1)).Nodup := of_decide_eq_true (Bool.and_eq_true_iff.mp hfields).2
    exact hnodup

theorem child_keys (a : Address) (k : Key) : (a.child k).keys = a.keys ++ [k] := rfl

theorem child_injective {a : Address} {k l : Key} (h : a.child k = a.child l) : k = l := by
  have hkeys : a.keys ++ [k] = a.keys ++ [l] := congrArg Address.keys h
  exact List.singleton_inj.mp (List.append_cancel_left hkeys)

theorem mem_itemEntries_iff {a b : Address} {i : Nat} {ns : List Node} {m : Node} :
    (b, m) ∈ itemEntries a i ns ↔ ∃ j, b = a.child (.index (i + j)) ∧ ns[j]? = some m := by
  induction ns generalizing i with
  | nil => simp [itemEntries]
  | cons n ns ih =>
    rw [itemEntries, List.mem_cons, ih]
    constructor
    · rintro (heq | ⟨j, hb, hj⟩)
      · cases heq
        exact ⟨0, rfl, rfl⟩
      · refine ⟨j + 1, ?_, hj⟩
        rw [hb, Nat.add_assoc, Nat.add_comm 1 j]
    · rintro ⟨j, hb, hj⟩
      cases j with
      | zero =>
        left
        rw [hb, Option.some.inj hj]
        rfl
      | succ j =>
        refine .inr ⟨j, ?_, hj⟩
        rw [hb, Nat.add_assoc, Nat.add_comm 1 j]

theorem mem_of_lookup {k : String} {fs : List (String × Node)} {m : Node}
    (h : fs.lookup k = some m) : (k, m) ∈ fs := by
  obtain ⟨left, right, rfl, _⟩ := List.lookup_eq_some_iff.mp h
  exact List.mem_append_cons_self

theorem lookup_of_mem {k : String} {fs : List (String × Node)} {m : Node}
    (hd : (fs.map (·.1)).Nodup) (h : (k, m) ∈ fs) : fs.lookup k = some m := by
  obtain ⟨left, right, rfl⟩ := List.append_of_mem h
  rw [List.map_append, List.map_cons, List.nodup_middle, List.nodup_cons] at hd
  refine List.lookup_eq_some_iff.mpr ⟨left, right, rfl, ?_⟩
  intro f hf
  rw [bne_iff_ne]
  rintro rfl
  exact hd.1 (List.mem_append_left _ (List.mem_map.mpr ⟨f, hf, rfl⟩))

theorem mem_entries_of_child? (a : Address) {n m : Node} {k : Key} (h : n.child? k = some m) :
    (a.child k, m) ∈ n.entries a := by
  obtain ⟨t, v, c⟩ := n
  cases k with
  | field name =>
    cases c with
    | keyed fs => exact List.mem_map.mpr ⟨(name, m), mem_of_lookup h, rfl⟩
    | _ => cases h
  | index i =>
    cases c with
    | sequence ns =>
      refine mem_itemEntries_iff.mpr ⟨i, ?_, h⟩
      rw [Nat.zero_add]
    | _ => cases h

theorem child?_of_mem_entries {a b : Address} {n m : Node} (hd : n.DistinctFields)
    (h : (b, m) ∈ n.entries a) : ∃ k, b = a.child k ∧ n.child? k = some m := by
  obtain ⟨t, v, c⟩ := n
  cases c with
  | none => cases h
  | keyed fs =>
    obtain ⟨f, hf, heq⟩ := List.mem_map.mp h
    cases heq
    exact ⟨.field f.1, rfl, lookup_of_mem hd hf⟩
  | sequence ns =>
    obtain ⟨j, hb, hj⟩ := mem_itemEntries_iff.mp h
    rw [Nat.zero_add] at hb
    exact ⟨.index j, hb, hj⟩

theorem mem_visit_of_follow {n m : Node} {ks : List Key} :
    ∀ {a : Address}, n.follow ks = some m → (⟨a.keys ++ ks⟩, m) ∈ n.visit a := by
  induction ks generalizing n with
  | nil =>
    intro a h
    cases h
    rw [visit_eq, List.append_nil]
    exact List.mem_cons_self
  | cons k ks ih =>
    intro a h
    rw [follow] at h
    split at h
    · rename_i c hc
      have hin : (⟨(a.child k).keys ++ ks⟩, m) ∈ c.visit (a.child k) := ih h
      rw [child_keys, List.append_assoc] at hin
      rw [visit_eq]
      exact List.mem_cons_of_mem _
        (List.mem_flatMap.mpr ⟨(a.child k, c), mem_entries_of_child? a hc, hin⟩)
    · cases h

theorem mem_walk_of_follow {n m : Node} {ks : List Key} (h : n.follow ks = some m) :
    (⟨ks⟩, m) ∈ n.walk := by
  rw [walk_eq_visit]
  exact mem_visit_of_follow h

theorem follow_of_mem_visit {n : Node} (hd : n.All DistinctFields) :
    ∀ {a b : Address} {m : Node}, (b, m) ∈ n.visit a →
      ∃ ks, b.keys = a.keys ++ ks ∧ n.follow ks = some m := by
  induction hd with
  | @intro n hroot _ ih =>
    intro a b m h
    rw [visit_eq] at h
    rcases List.mem_cons.mp h with heq | h
    · cases heq
      exact ⟨[], (List.append_nil _).symm, rfl⟩
    · obtain ⟨⟨c, child⟩, hentry, hin⟩ := List.mem_flatMap.mp h
      obtain ⟨k, rfl, hk⟩ := child?_of_mem_entries hroot hentry
      obtain ⟨ks, hkeys, hfollow⟩ := ih child (mem_parts_of_mem_entries hentry) hin
      refine ⟨k :: ks, ?_, ?_⟩
      · rw [hkeys, child_keys, List.append_assoc]
        rfl
      · rw [follow, hk]
        exact hfollow

theorem mem_walk_iff {n m : Node} (hd : n.All DistinctFields) {a : Address} :
    (a, m) ∈ n.walk ↔ n.get? a = some m := by
  rw [walk_eq_visit]
  constructor
  · intro h
    obtain ⟨ks, hkeys, hfollow⟩ := follow_of_mem_visit hd h
    rw [get?, hkeys]
    exact hfollow
  · intro h
    exact mem_visit_of_follow (a := .root) h

/-! ## no address twice -/

theorem nodup_itemEntries (a : Address) (i : Nat) (ns : List Node) :
    ((itemEntries a i ns).map (·.1)).Nodup := by
  induction ns generalizing i with
  | nil => exact List.nodup_nil
  | cons n ns ih =>
    rw [itemEntries, List.map_cons, List.nodup_cons]
    refine ⟨?_, ih (i + 1)⟩
    intro h
    obtain ⟨⟨b, m⟩, hmem, hb⟩ := List.mem_map.mp h
    obtain ⟨j, rfl, _⟩ := mem_itemEntries_iff.mp hmem
    have hindex : i + 1 + j = i := Key.index.inj (child_injective hb)
    omega

theorem nodup_entries (a : Address) {n : Node} (hd : n.DistinctFields) :
    ((n.entries a).map (·.1)).Nodup := by
  obtain ⟨t, v, c⟩ := n
  cases c with
  | none => exact List.nodup_nil
  | keyed fs =>
    have hmap : ((fs.map fun f => (a.child (.field f.1), f.2)).map (·.1)) =
        (fs.map (·.1)).map fun k => a.child (.field k) := by
      rw [List.map_map, List.map_map]
      rfl
    show ((fs.map fun f => (a.child (.field f.1), f.2)).map (·.1)).Nodup
    rw [hmap]
    exact List.Nodup.map (fun k l h => Key.field.inj (child_injective h)) hd
  | sequence ns => exact nodup_itemEntries a 0 ns

theorem nodup_visit {n : Node} (hd : n.All DistinctFields) :
    ∀ a : Address, ((n.visit a).map (·.1)).Nodup := by
  induction hd with
  | @intro n hroot hparts ih =>
    intro a
    -- what is visited below an entry has the address of the entry in front
    have hbelow : ∀ e ∈ n.entries a, ∀ b ∈ (e.2.visit e.1).map (·.1),
        e.1.keys <+: b.keys := by
      intro e he b hb
      obtain ⟨⟨b, m⟩, hmem, rfl⟩ := List.mem_map.mp hb
      obtain ⟨ks, hkeys, _⟩ :=
        follow_of_mem_visit (hparts e.2 (mem_parts_of_mem_entries he)) hmem
      exact ⟨ks, hkeys.symm⟩
    rw [visit_eq, List.map_cons, List.map_flatMap, List.nodup_cons]
    constructor
    · intro h
      obtain ⟨e, he, hin⟩ := List.mem_flatMap.mp h
      obtain ⟨k, hk, _⟩ := child?_of_mem_entries hroot he
      have hlen := (hbelow e he a hin).length_le
      rw [hk, child_keys, List.length_append, List.length_singleton] at hlen
      omega
    · refine List.nodup_flatMap.mpr ⟨fun e he => ih e.2 (mem_parts_of_mem_entries he) e.1, ?_⟩
      have hentries := List.pairwise_map.mp (nodup_entries a hroot)
      refine hentries.imp_of_mem ?_
      intro e f he hf hne b hbe hbf
      obtain ⟨k, hk, _⟩ := child?_of_mem_entries hroot he
      obtain ⟨l, hl, _⟩ := child?_of_mem_entries hroot hf
      have hle := hbelow e he b hbe
      have hlf := hbelow f hf b hbf
      have hlength : e.1.keys.length = f.1.keys.length := by
        rw [hk, hl, child_keys, child_keys, List.length_append, List.length_append]
        rfl
      have hkeys : e.1.keys = f.1.keys :=
        (List.prefix_of_prefix_length_le hle hlf (Nat.le_of_eq hlength)).eq_of_length hlength
      exact hne (congrArg Address.mk hkeys)

theorem nodup_walk {n : Node} (hd : n.All DistinctFields) : (n.walk.map (·.1)).Nodup := by
  rw [walk_eq_visit]
  exact nodup_visit hd .root

/-! ## size -/

/-- the walk visits as many nodes as the trees on its stack have -/
theorem length_walkStack (stack : List (Address × Node)) :
    (walkStack stack).length = pending stack := by
  induction stack using walkStack.induct with
  | case1 =>
    rw [walkStack]
    rfl
  | case2 a n rest ih =>
    have hcount := pending_entries a n
    rw [walkStack, List.length_cons, ih, pending_append, pending_cons]
    show pending (n.entries a) + pending rest + 1 = n.count + pending rest
    omega

theorem size_eq_count (n : Node) : n.size = n.count := by
  show (walkStack [(.root, n)]).length = n.count
  rw [length_walkStack, pending_cons]
  rfl

theorem countFields_eq_sum (fs : List (String × Node)) :
    countFields fs = ((fs.map (·.2)).map count).sum := by
  induction fs with
  | nil => rfl
  | cons f fs ih => rw [countFields, ih, List.map_cons, List.map_cons, List.sum_cons]

theorem countItems_eq_sum (ns : List Node) : countItems ns = (ns.map count).sum := by
  induction ns with
  | nil => rfl
  | cons n ns ih => rw [countItems, ih, List.map_cons, List.sum_cons]

theorem count_eq_sum (n : Node) : n.count = 1 + (n.parts.map count).sum := by
  obtain ⟨t, v, c⟩ := n
  rw [count, Nat.add_comm]
  cases c with
  | none => rfl
  | keyed fs => rw [countChildren, countFields_eq_sum]; rfl
  | sequence ns => rw [countChildren, countItems_eq_sum]; rfl

theorem size_eq_sum (n : Node) : n.size = 1 + (n.parts.map size).sum := by
  have hsize : size = count := funext size_eq_count
  rw [hsize]
  exact count_eq_sum n

/-! ## walking and looking up -/

/-- **The walk and the look-up agree.**  In a tree without two fields of one name the walk visits the
nodes of the recursive traversal in its order, no address twice, and exactly the nodes that can be
looked up under their addresses; the size of the tree is one more than the sizes of its parts. -/
theorem walk_and_get_agree {n : Node} (hd : n.All DistinctFields) :
    n.walk = n.visit .root ∧ (n.walk.map (·.1)).Nodup ∧
      (∀ (a : Address) (m : Node), n.get? a = some m ↔ (a, m) ∈ n.walk) ∧
      n.size = 1 + (n.parts.map size).sum :=
  ⟨walk_eq_visit n, nodup_walk hd, fun _ _ => (mem_walk_iff hd).symm, size_eq_sum n⟩

/-- a sequence with two equal items in a field of a well-formed tree -/
theorem walk_and_get_agree_of_equal_items :
    let x := leaf (.symbol "x")
    let t := sequence "tuple" [x, x]
    let n := keyed "definition" [("pattern", x), ("y", t)]
    n.All (fun m => m.isWellFormed = true) ∧
      n.walk = [(⟨[]⟩, n), (⟨[.field "pattern"]⟩, x), (⟨[.field "y"]⟩, t),
        (⟨[.field "y", .index 0]⟩, x), (⟨[.field "y", .index 1]⟩, x)] ∧
      (n.walk.map (·.1)).Nodup ∧ (⟨[.field "y", .index 1]⟩, x) ∈ n.walk ∧ n.size = 5 := by
  intro x t n
  have hx : x.All fun m => m.isWellFormed = true := .intro rfl (List.forall_mem_nil _)
  have ht : t.All fun m => m.isWellFormed = true :=
    .intro rfl (List.forall_mem_cons.mpr ⟨hx, List.forall_mem_singleton.mpr hx⟩)
  have hn : n.All fun m => m.isWellFormed = true :=
    .intro (by decide) (List.forall_mem_cons.mpr ⟨hx, List.forall_mem_singleton.mpr ht⟩)
  obtain ⟨hwalk, hnodup, hget, hsize⟩ :=
    walk_and_get_agree (hn.mono fun _ => distinctFields_of_isWellFormed)
  have hparts : n.parts.map size = [1, 3] := by
    show [x.size, t.size] = [1, 3]
    rw [size_eq_count, size_eq_count]
    rfl
  rw [hparts] at hsize
  exact ⟨hn, hwalk, hnodup, (hget _ _).mp rfl, hsize⟩

end Node

end TraceFront
