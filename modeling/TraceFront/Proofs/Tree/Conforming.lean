import TraceFront.Tree.OfExpr
import TraceFront.Tree.Shape

/-!
# Trees of conforming nodes

* `Node.parts`       the nodes directly below;
* `Node.All`         a property of a node and of every node below it, at any depth;
* `Node.Conforms`    the node is well formed and laid out as the table of types says;
* `conforms_keyed`, `conforms_literal`, `conforms_reference`, `conforms_sequence`,
  `conforms_definition`    the nodes that conform, one lemma for each row of the table.

The walk over a tree meets no node but those of `Node.All` (`All.forall_mem_walk`), so that a tree
of conforming nodes has the right shape (`shapeError?_eq_none`).
-/

namespace TraceFront

namespace Node

/-- the nodes directly below, in order -/
def parts (n : Node) : List Node :=
  match n.children with
  | .none => []
  | .keyed fs => fs.map (·.2)
  | .sequence ns => ns

/-- the node and all nodes below it have a property -/
inductive All (P : Node → Prop) : Node → Prop
  | intro {n : Node} (root : P n) (parts : ∀ m ∈ n.parts, All P m) : All P n

theorem All.root {P : Node → Prop} {n : Node} (h : n.All P) : P n := by
  cases h with
  | intro root _ => exact root

theorem All.parts {P : Node → Prop} {n : Node} (h : n.All P) : ∀ m ∈ n.parts, m.All P := by
  cases h with
  | intro _ parts => exact parts

theorem All.mono {P Q : Node → Prop} (hPQ : ∀ n, P n → Q n) {n : Node} (h : n.All P) : n.All Q := by
  induction h with
  | intro root _ ih => exact .intro (hPQ _ root) ih

theorem All.keyed {P : Node → Prop} {tag : String} {fields : List (String × Node)}
    (root : P (Node.keyed tag fields)) (parts : ∀ f ∈ fields, f.2.All P) :
    (Node.keyed tag fields).All P := by
  have hparts : (Node.keyed tag fields).parts = fields.map (·.2) := by cases fields <;> rfl
  refine .intro root ?_
  rw [hparts]
  exact List.forall_mem_map.mpr parts

theorem All.ofType {P : Node → Prop} {t : NodeType} {fields : List (Field × Node)}
    (root : P (t.keyed fields)) (parts : ∀ f ∈ fields, f.2.All P) : (t.keyed fields).All P :=
  All.keyed root (List.forall_mem_map.mpr parts)

/-! ## the walk -/

theorem mem_parts_of_mem_itemEntries {a : Address} {i : Nat} {ns : List Node}
    {e : Address × Node} (h : e ∈ itemEntries a i ns) : e.2 ∈ ns := by
  induction ns generalizing i with
  | nil => cases h
  | cons n ns ih =>
    rcases List.mem_cons.mp h with rfl | h
    · exact List.mem_cons_self
    · exact List.mem_cons_of_mem _ (ih h)

theorem mem_parts_of_mem_entries {a : Address} {n : Node} {e : Address × Node}
    (h : e ∈ n.entries a) : e.2 ∈ n.parts := by
  obtain ⟨t, v, c⟩ := n
  cases c with
  | none => cases h
  | keyed fs =>
    obtain ⟨f, hf, rfl⟩ := List.mem_map.mp h
    exact List.mem_map_of_mem hf
  | sequence ns => exact mem_parts_of_mem_itemEntries h

theorem forall_mem_walkStack {P : Node → Prop} (stack : List (Address × Node))
    (h : ∀ e ∈ stack, e.2.All P) : ∀ e ∈ walkStack stack, P e.2 := by
  induction stack using walkStack.induct with
  | case1 =>
    rw [walkStack]
    exact List.forall_mem_nil _
  | case2 a n rest ih =>
    obtain ⟨hn, hrest⟩ := List.forall_mem_cons.mp h
    rw [walkStack]
    refine List.forall_mem_cons.mpr ⟨hn.root, ih ?_⟩
    -- the parts of the root go on the stack, in front of the other trees
    refine List.forall_mem_append.mpr ⟨?_, hrest⟩
    exact fun e he => hn.parts e.2 (mem_parts_of_mem_entries he)

theorem All.forall_mem_walk {P : Node → Prop} {n : Node} (h : n.All P) :
    ∀ e ∈ n.walk, P e.2 :=
  forall_mem_walkStack _ (List.forall_mem_singleton.mpr h)

theorem shapeError?_eq_none {n : Node} (h : n.All fun m => m.problem? = none) :
    n.shapeError? = none := by
  refine List.findSome?_eq_none_iff.mpr ?_
  intro e he
  rw [h.forall_mem_walk e he]
  rfl

/-! ## conforming nodes -/

/-- the node is well formed and has no problem of shape -/
structure Conforms (n : Node) : Prop where
  wellFormed : n.isWellFormed = true
  noProblem : n.problem? = none

end Node

theorem Field.text_injective : Function.Injective Field.text := by
  intro f g h
  cases f <;> cases g <;> first | rfl | exact absurd h (by decide)

theorem Field.text_ne_empty (f : Field) : f.text ≠ "" := by cases f <;> decide

theorem NodeType.tag_ne_empty (t : NodeType) : t.tag ≠ "" := by cases t <;> decide

/-- no row of the table names a field twice -/
theorem NodeType.nodup_of_layout {t : NodeType} {names : List Field}
    (h : t.layout = .fields names) : names.Nodup := by
  cases t <;> cases h <;> decide

namespace Node

theorem isWellFormed_keyed {tag : String} (ht : tag ≠ "") {fields : List (String × Node)}
    (hne : ∀ n ∈ fields.map (·.1), n ≠ "") (hd : (fields.map (·.1)).Nodup) :
    (Node.keyed tag fields).isWellFormed = true := by
  have hall : fields.all (·.1 != "") = true := by
    refine List.all_eq_true.mpr ?_
    intro f hf
    exact bne_iff_ne.mpr (hne f.1 (List.mem_map_of_mem hf))
  cases fields with
  | nil => simp [isWellFormed, Node.keyed, ht]
  | cons f fs =>
    show (tag != "" && ((f :: fs).all (·.1 != "") && decide (((f :: fs).map (·.1)).Nodup))) = true
    rw [hall, decide_eq_true hd, bne_iff_ne.mpr ht]
    rfl

theorem fieldNames_keyed (tag : String) (fields : List (String × Node)) :
    (Node.keyed tag fields).fieldNames = fields.map (·.1) := by
  cases fields <;> rfl

theorem isWellFormed_keyed_of_layout {t : NodeType} {fields : List (Field × Node)}
    (h : t.layout = .fields (fields.map (·.1))) : (t.keyed fields).isWellFormed = true := by
  have hnames : (fields.map fun f => (f.1.text, f.2)).map (·.1) =
      (fields.map (·.1)).map Field.text := by
    rw [List.map_map, List.map_map]
    rfl
  refine isWellFormed_keyed t.tag_ne_empty ?_ ?_
  · intro n hn
    rw [hnames] at hn
    obtain ⟨f, _, rfl⟩ := List.mem_map.mp hn
    exact f.text_ne_empty
  · rw [hnames]
    exact List.Pairwise.map _ (fun f g hfg ht => hfg (Field.text_injective ht))
      (NodeType.nodup_of_layout h)

theorem conforms_leaf (v : Value) : (leaf v).Conforms := ⟨rfl, rfl⟩

theorem conforms_keyed {t : NodeType} {fields : List (Field × Node)}
    (h : t.layout = .fields (fields.map (·.1))) (hl : t ≠ .literal := by decide)
    (hr : t ≠ .reference := by decide) : (t.keyed fields).Conforms := by
  refine ⟨isWellFormed_keyed_of_layout h, ?_⟩
  have hnames : (t.keyed fields).fieldNames = (fields.map (·.1)).map Field.text := by
    rw [NodeType.keyed, fieldNames_keyed, List.map_map, List.map_map]
    rfl
  have hrow : (t.keyed fields).problem? = (t.keyed fields).fieldsProblem? t (fields.map (·.1)) := by
    simp only [problem?, NodeType.keyed, Node.keyed, NodeType.ofTag?_tag, h]
  rw [hrow, fieldsProblem?, if_neg (not_not_intro hnames)]
  · exact hl
  · exact hr

theorem conforms_literal (l : Literal String) :
    (NodeType.literal.keyed [(.value, .leaf (.constant l))]).Conforms :=
  ⟨isWellFormed_keyed_of_layout rfl, rfl⟩

theorem conforms_reference (n : String) :
    (NodeType.reference.keyed [(.name, .leaf (.symbol n))]).Conforms :=
  ⟨isWellFormed_keyed_of_layout rfl, rfl⟩

theorem conforms_sequence {t : NodeType} (h : t.layout = .sequence) {items : List Node}
    (ha : t = .application → items ≠ []) : (t.sequence items).Conforms := by
  constructor
  · simp [isWellFormed, NodeType.sequence, Node.sequence, t.tag_ne_empty]
  · have hrow : (t.sequence items).problem? = (t.sequence items).sequenceProblem? t := by
      simp only [problem?, NodeType.sequence, Node.sequence, NodeType.ofTag?_tag, h]
    rw [hrow]
    refine if_neg ?_
    intro hboth
    obtain ⟨ht, hitems⟩ := Bool.and_eq_true_iff.mp hboth
    exact ha (of_decide_eq_true ht) (List.isEmpty_iff.mp hitems)

theorem conforms_block (ns : List Node) : (NodeType.block.sequence ns).Conforms :=
  conforms_sequence rfl (absurd · (by decide))

theorem conforms_tuple (ns : List Node) : (NodeType.tuple.sequence ns).Conforms :=
  conforms_sequence rfl (absurd · (by decide))

theorem conforms_definition {name : String} (hne : name ≠ "") (hp : name ≠ Field.pattern.text)
    (pattern value : Node) :
    (Node.keyed NodeType.definition.tag
      [(Field.pattern.text, pattern), (name, value)]).Conforms := by
  constructor
  · refine isWellFormed_keyed NodeType.definition.tag_ne_empty ?_ ?_
    · exact List.forall_mem_cons.mpr ⟨Field.pattern.text_ne_empty,
        List.forall_mem_singleton.mpr hne⟩
    · exact List.nodup_cons.mpr ⟨fun h => hp (List.mem_singleton.mp h).symm,
        List.nodup_cons.mpr ⟨List.not_mem_nil, List.nodup_nil⟩⟩
  · exact if_pos ⟨rfl, hp⟩

end Node

end TraceFront
