import TraceFront.Proofs.Expr.Frames
import TraceFront.Proofs.Tree.Lowering

/-!
# Where subterms end up in a tree

The table of node types gives every child of an expression an address below the node of the
expression.  Lowering puts the tree of the child there and nowhere else.

* `Node.graft`                      the tree with the subtree at a path replaced;
* `Slot`                            a tree with a hole at a path: the path leads to what is planted in
                                    it, and to plant something else is to replace just that;
* `Frame.keys`, `Context.address`   the address of the child in the hole;
* `Frame.plant`, `Context.plant`    the tree around the tree of that child;
* `Frame.slot`, `Context.slot`      the hole of the tree is at that address.

A path leads through fields by the first one of a name.  The one field whose name is chosen by a
source is the value of a definition, and it comes after `pattern`; a definition that calls its value
so is a collision.
-/

namespace TraceFront

/-! ## replacing a subtree -/

namespace Node

/-- the fields with the first one of a name changed -/
def modifyField (name : String) (f : Node → Node) : List (String × Node) → List (String × Node)
  | [] => []
  | (k, n) :: fs => if name == k then (k, f n) :: fs else (k, n) :: modifyField name f fs

/-- the node with the child under a key changed -/
def modifyChild (f : Node → Node) : Key → Node → Node
  | .field name, ⟨t, v, .keyed fs⟩ => ⟨t, v, .keyed (modifyField name f fs)⟩
  | .index i, ⟨t, v, .sequence ns⟩ => ⟨t, v, .sequence (ns.modify i f)⟩
  | _, n => n

/-- the tree with the subtree that a path leads to replaced by `m` -/
def graft (m : Node) : List Key → Node → Node
  | [], _ => m
  | k :: ks, n => modifyChild (graft m ks) k n

theorem lookup_modifyField_self (name : String) (f : Node → Node) (fs : List (String × Node)) :
    (modifyField name f fs).lookup name = (fs.lookup name).map f := by
  induction fs with
  | nil => rfl
  | cons g fs ih =>
    obtain ⟨k, n⟩ := g
    rw [modifyField, List.lookup_cons]
    cases hk : name == k with
    | true => simp [List.lookup_cons, hk]
    | false => simp [List.lookup_cons, hk, ih]

theorem lookup_modifyField_of_ne {name name' : String} (hne : name' ≠ name) (f : Node → Node)
    (fs : List (String × Node)) : (modifyField name f fs).lookup name' = fs.lookup name' := by
  induction fs with
  | nil => rfl
  | cons g fs ih =>
    obtain ⟨k, n⟩ := g
    rw [modifyField]
    split
    · rename_i hk
      have hk' : (name' == k) = false := by simpa [← beq_iff_eq.mp hk] using hne
      rw [List.lookup_cons, List.lookup_cons, hk']
    · rw [List.lookup_cons, List.lookup_cons, ih]

theorem modifyField_congr {name : String} {f g : Node → Node} {fs : List (String × Node)} {n : Node}
    (h : fs.lookup name = some n) (hfg : f n = g n) :
    modifyField name f fs = modifyField name g fs := by
  induction fs with
  | nil => rfl
  | cons field fs ih =>
    obtain ⟨k, m⟩ := field
    rw [List.lookup_cons] at h
    rw [modifyField, modifyField]
    split at h
    · rename_i hk
      rw [if_pos hk, if_pos hk, Option.some.inj h, hfg]
    · rename_i hk
      rw [if_neg (by simp [hk]), if_neg (by simp [hk]), ih h]

theorem lookup_of_first {name : String} {left : List (String × Node)}
    (hname : name ∉ left.map (·.1)) (n : Node) (right : List (String × Node)) :
    (left ++ (name, n) :: right).lookup name = some n := by
  induction left with
  | nil => simp
  | cons g left ih =>
    have hg : (name == g.1) = false := by simpa using List.ne_of_not_mem_cons hname
    rw [List.cons_append, List.lookup_cons, hg]
    exact ih (List.not_mem_of_not_mem_cons hname)

theorem modifyField_of_first {name : String} {left : List (String × Node)}
    (hname : name ∉ left.map (·.1)) (f : Node → Node) (n : Node) (right : List (String × Node)) :
    modifyField name f (left ++ (name, n) :: right) = left ++ (name, f n) :: right := by
  induction left with
  | nil => simp [modifyField]
  | cons g left ih =>
    have hg : ¬(name == g.1) = true := by simpa using List.ne_of_not_mem_cons hname
    rw [List.cons_append, modifyField, if_neg hg, ih (List.not_mem_of_not_mem_cons hname)]
    rfl

theorem child?_modifyChild_self (k : Key) (f : Node → Node) (n : Node) :
    (modifyChild f k n).child? k = (n.child? k).map f := by
  obtain ⟨t, v, c⟩ := n
  cases k with
  | field name =>
    cases c with
    | keyed fs => exact lookup_modifyField_self name f fs
    | _ => rfl
  | index i =>
    cases c with
    | sequence ns => exact List.getElem?_modify_eq f i ns
    | _ => rfl

theorem child?_modifyChild_of_ne {k k' : Key} (hne : k' ≠ k) (f : Node → Node) (n : Node) :
    (modifyChild f k n).child? k' = n.child? k' := by
  obtain ⟨t, v, c⟩ := n
  cases k with
  | field name =>
    cases c with
    | keyed fs =>
      cases k' with
      | field name' => exact lookup_modifyField_of_ne (fun h => hne (congrArg Key.field h)) f fs
      | index i => rfl
    | _ => rfl
  | index i =>
    cases c with
    | sequence ns =>
      cases k' with
      | field name => rfl
      | index j =>
        have hij : i ≠ j := fun h => hne (congrArg Key.index h.symm)
        exact List.getElem?_modify_ne f ns hij
    | _ => rfl

theorem modifyChild_congr {k : Key} {f g : Node → Node} {n m : Node} (h : n.child? k = some m)
    (hfg : f m = g m) : modifyChild f k n = modifyChild g k n := by
  obtain ⟨t, v, c⟩ := n
  cases k with
  | field name =>
    cases c with
    | keyed fs =>
      have hfs : modifyField name f fs = modifyField name g fs := modifyField_congr h hfg
      rw [modifyChild, modifyChild, hfs]
    | _ => rfl
  | index i =>
    cases c with
    | sequence ns =>
      have hns : ns.modify i f = ns.modify i g := by
        refine List.ext_getElem? ?_
        intro j
        rw [List.getElem?_modify, List.getElem?_modify]
        by_cases hij : i = j
        · have hj : ns[j]? = some m := hij ▸ h
          simp [hj, hij, hfg]
        · simp [hij]
      rw [modifyChild, modifyChild, hns]
    | _ => rfl

theorem follow_cons {n m : Node} {k : Key} (h : n.child? k = some m) (ks : List Key) :
    n.follow (k :: ks) = m.follow ks := by
  rw [follow, h]

theorem child?_of_follow_cons {n m : Node} {k : Key} {ks : List Key}
    (h : n.follow (k :: ks) = some m) : ∃ c, n.child? k = some c ∧ c.follow ks = some m := by
  rw [follow] at h
  split at h
  · rename_i c hc
    exact ⟨c, hc, h⟩
  · cases h

theorem follow_append {n m : Node} {ks : List Key} (h : n.follow ks = some m) (ls : List Key) :
    n.follow (ks ++ ls) = m.follow ls := by
  induction ks generalizing n with
  | nil =>
    cases h
    rfl
  | cons k ks ih =>
    obtain ⟨c, hc, hm⟩ := child?_of_follow_cons h
    rw [List.cons_append, follow_cons hc]
    exact ih hm

theorem graft_append {n c : Node} {ks : List Key} (h : n.follow ks = some c) (m : Node)
    (ls : List Key) : graft m (ks ++ ls) n = graft (graft m ls c) ks n := by
  induction ks generalizing n with
  | nil =>
    cases h
    rfl
  | cons k ks ih =>
    obtain ⟨d, hd, hc⟩ := child?_of_follow_cons h
    exact modifyChild_congr hd (ih hc)

/-- replacing a subtree changes nothing at addresses that neither lead into it nor to it -/
theorem follow_graft_of_apart (m : Node) {ks ls : List Key} (h : ¬ks <+: ls) (h' : ¬ls <+: ks)
    (n : Node) : (graft m ks n).follow ls = n.follow ls := by
  induction ks generalizing ls n with
  | nil => exact absurd (List.nil_prefix) h
  | cons k ks ih =>
    cases ls with
    | nil => exact absurd (List.nil_prefix) h'
    | cons l ls =>
      rw [graft, follow, follow]
      -- the paths have the first key in common, or part there
      by_cases hlk : l = k
      · subst hlk
        rw [child?_modifyChild_self]
        cases n.child? l with
        | none => rfl
        | some c =>
          exact ih (fun hp => h (List.cons_prefix_cons.mpr ⟨rfl, hp⟩))
            (fun hp => h' (List.cons_prefix_cons.mpr ⟨rfl, hp⟩)) c
      · rw [child?_modifyChild_of_ne hlk]

end Node

/-! ## trees with a hole -/

/-- the tree `g n` holds `n` at the end of the path, and nothing else of it depends on `n` -/
structure Slot (g : Node → Node) (path : List Key) : Prop where
  follow : ∀ n, (g n).follow path = some n
  graft : ∀ n m, Node.graft m path (g n) = g m

theorem Slot.here : Slot (fun n => n) [] := ⟨fun _ => rfl, fun _ _ => rfl⟩

theorem Slot.comp {g h : Node → Node} {ks ls : List Key} (hg : Slot g ks) (hh : Slot h ls) :
    Slot (fun n => g (h n)) (ks ++ ls) := by
  constructor
  · intro n
    rw [Node.follow_append (hg.follow (h n))]
    exact hh.follow n
  · intro n m
    rw [Node.graft_append (hg.follow (h n)), hg.graft, hh.graft]

theorem Slot.keyed (tag : String) (left : List (String × Node)) (name : String)
    (right : List (String × Node)) (hname : name ∉ left.map (·.1)) :
    Slot (fun n => Node.keyed tag (left ++ (name, n) :: right)) [.field name] := by
  have hfields : ∀ n, (Node.keyed tag (left ++ (name, n) :: right)) =
      ⟨some tag, none, .keyed (left ++ (name, n) :: right)⟩ := by
    intro n
    rw [Node.keyed, if_neg (by simp)]
  constructor
  · intro n
    have hchild : (Node.keyed tag (left ++ (name, n) :: right)).child? (.field name) = some n := by
      rw [hfields]
      exact Node.lookup_of_first hname n right
    exact Node.follow_cons hchild []
  · intro n m
    rw [hfields, hfields]
    show Node.mk _ _ (.keyed (Node.modifyField name (fun _ => m) (left ++ (name, n) :: right))) = _
    rw [Node.modifyField_of_first hname]

theorem Slot.sequence (tag : String) (left right : List Node) :
    Slot (fun n => Node.sequence tag (left ++ n :: right)) [.index left.length] := by
  constructor
  · intro n
    have hchild : (Node.sequence tag (left ++ n :: right)).child? (.index left.length) = some n := by
      show (left ++ n :: right)[left.length]? = some n
      simp
    exact Node.follow_cons hchild []
  · intro n m
    show Node.mk _ _ (.sequence ((left ++ n :: right).modify left.length fun _ => m)) = _
    have hmodify : (left ++ n :: right).modify left.length (fun _ => m) = left ++ m :: right := by
      induction left with
      | nil => rfl
      | cons l left ih => simp [ih]
    rw [hmodify]
    rfl

theorem Slot.ofType (t : NodeType) (left : List (Field × Node)) (f : Field)
    (right : List (Field × Node)) (hf : f ∉ left.map (·.1)) :
    Slot (fun n => t.keyed (left ++ (f, n) :: right)) [.field f.text] := by
  have hname : f.text ∉ (left.map fun g => (g.1.text, g.2)).map (·.1) := by
    intro h
    rw [List.map_map] at h
    obtain ⟨g, hg, htext⟩ := List.mem_map.mp h
    exact hf (List.mem_map.mpr ⟨g, hg, Field.text_injective htext⟩)
  have hslot := Slot.keyed t.tag _ f.text (right.map fun g => (g.1.text, g.2)) hname
  simpa only [NodeType.keyed, List.map_append, List.map_cons] using hslot

/-! ## frames -/

theorem bodyNode_of_length_ne_one {ns : List Node} (h : ns.length ≠ 1) :
    bodyNode ns = NodeType.block.sequence ns := by
  unfold bodyNode
  split
  · exact absurd rfl h
  · rfl

theorem Expr.length_nodes (es : List (Expr String)) : (nodes es).length = es.length := by
  rw [nodes_eq_map, List.length_map]

namespace Frame

/-- the path from the node of an expression to the node of the child in the hole -/
def keys : Frame → List Key
  | statement _ es fs _ =>
    .field Field.body.text :: if es.isEmpty && fs.isEmpty then [] else [.index es.length]
  | soleCondition _ _ => [.field Field.predicate.text]
  | soleBranch _ _ => [.field Field.consequent.text]
  | condition _ _ _ => [.field Field.predicate.text]
  | consequent _ _ _ => [.field Field.consequent.text]
  | alternative _ _ _ => [.field Field.alternative.text]
  | inBlock es _ _ => [.index es.length]
  | value p _ => [.field p.valueField]
  | tag _ _ => [.field Field.tag.text]
  | tagged _ _ => [.field Field.expression.text]
  | inTuple es _ _ => [.index es.length]
  | operator _ _ => [.index 0]
  | operand _ es _ _ => [.index (es.length + 1)]
  | spliced _ => [.field Field.expression.text]
  | unquoted _ => [.field Field.expression.text]

/-- the tree of a frame around the tree of what is in its hole -/
def plant (k : Frame) (n : Node) : Node :=
  match k with
  | statement p es fs _ =>
    NodeType.program.keyed
      [(.pattern, p.node), (.body, bodyNode (Expr.nodes es ++ n :: Expr.nodes fs))]
  | soleCondition t _ =>
    NodeType.conditional.keyed
      [(.predicate, n), (.consequent, t.node), (.alternative, literalNode .nil)]
  | soleBranch p _ =>
    NodeType.conditional.keyed
      [(.predicate, p.node), (.consequent, n), (.alternative, literalNode .nil)]
  | condition t f _ =>
    NodeType.conditional.keyed [(.predicate, n), (.consequent, t.node), (.alternative, f.node)]
  | consequent p f _ =>
    NodeType.conditional.keyed [(.predicate, p.node), (.consequent, n), (.alternative, f.node)]
  | alternative p t _ =>
    NodeType.conditional.keyed [(.predicate, p.node), (.consequent, t.node), (.alternative, n)]
  | inBlock es fs _ => NodeType.block.sequence (Expr.nodes es ++ n :: Expr.nodes fs)
  | value p _ => .keyed NodeType.definition.tag [(Field.pattern.text, p.node), (p.valueField, n)]
  | tag f _ => NodeType.withAddress.keyed [(.tag, n), (.expression, f.node)]
  | tagged t _ => NodeType.withAddress.keyed [(.tag, t.node), (.expression, n)]
  | inTuple es fs _ => NodeType.tuple.sequence (Expr.nodes es ++ n :: Expr.nodes fs)
  | operator args _ => NodeType.application.sequence (n :: Expr.nodes args)
  | operand f es fs _ =>
    NodeType.application.sequence (f.node :: (Expr.nodes es ++ n :: Expr.nodes fs))
  | spliced _ => NodeType.splice.keyed [(.expression, n)]
  | unquoted _ => NodeType.unquote.keyed [(.expression, n)]

theorem node_fill (k : Frame) (e : Expr String) : (k.fill e).node = k.plant e.node := by
  cases k <;> simp [fill, plant, Expr.node, Expr.nodes_eq_map]

theorem slot_sequence (t : NodeType) (es fs : List (Expr String)) :
    Slot (fun n => t.sequence (Expr.nodes es ++ n :: Expr.nodes fs)) [.index es.length] := by
  have hslot := Slot.sequence t.tag (Expr.nodes es) (Expr.nodes fs)
  rwa [Expr.length_nodes] at hslot

theorem slot_statement (p : Pattern String) (es fs : List (Expr String)) (s : Span) :
    Slot (statement p es fs s).plant (statement p es fs s).keys := by
  have hbody := Slot.ofType .program [(.pattern, p.node)] .body [] (by simp)
  by_cases hone : (es.isEmpty && fs.isEmpty) = true
  · obtain ⟨hes, hfs⟩ := Bool.and_eq_true_iff.mp hone
    rw [List.isEmpty_iff] at hes hfs
    subst hes hfs
    exact hbody
  · -- beside other statements the body is a block, whatever stands in the hole
    have hplant : (statement p es fs s).plant = fun n => NodeType.program.keyed
        [(.pattern, p.node), (.body, NodeType.block.sequence (Expr.nodes es ++ n :: Expr.nodes fs))] := by
      funext n
      have hlength : (Expr.nodes es ++ n :: Expr.nodes fs).length ≠ 1 := by
        intro hlength
        rw [List.length_append, List.length_cons, Expr.length_nodes, Expr.length_nodes] at hlength
        have hes : es = [] := List.length_eq_zero_iff.mp (by omega)
        have hfs : fs = [] := List.length_eq_zero_iff.mp (by omega)
        exact hone (by rw [hes, hfs]; rfl)
      rw [plant, bodyNode_of_length_ne_one hlength]
    rw [hplant, keys, if_neg hone]
    exact hbody.comp (slot_sequence .block es fs)

/-- without a collision the child in the hole has an address of its own -/
theorem slot {k : Frame} {e : Expr String} (h : (k.fill e).collisions = []) :
    Slot k.plant k.keys := by
  cases k with
  | statement p es fs s => exact slot_statement p es fs s
  | soleCondition t s => exact .ofType .conditional [] .predicate _ (by simp)
  | soleBranch p s => exact .ofType .conditional [(.predicate, _)] .consequent _ (by simp)
  | condition t f s => exact .ofType .conditional [] .predicate _ (by simp)
  | consequent p f s => exact .ofType .conditional [(.predicate, _)] .consequent _ (by simp)
  | alternative p t s =>
    exact .ofType .conditional [(.predicate, _), (.consequent, _)] .alternative [] (by simp)
  | inBlock es fs s => exact slot_sequence .block es fs
  | value p s =>
    -- the one field that a source names comes second
    have hp : p.valueField ∉ [Field.pattern.text] :=
      fun hp => Expr.valueField_ne_pattern h (List.mem_singleton.mp hp)
    exact .keyed _ [(Field.pattern.text, p.node)] p.valueField [] hp
  | tag f s => exact .ofType .withAddress [] .tag _ (by simp)
  | tagged t s => exact .ofType .withAddress [(.tag, _)] .expression [] (by simp)
  | inTuple es fs s => exact slot_sequence .tuple es fs
  | operator args s => exact .sequence _ [] (Expr.nodes args)
  | operand f es fs s => exact slot_sequence .application (f :: es) fs
  | spliced s => exact .ofType .splice [] .expression [] (by simp)
  | unquoted s => exact .ofType .unquote [] .expression [] (by simp)

theorem collisions_fill {k : Frame} {e e' : Expr String} (h : (k.fill e).collisions = [])
    (h' : e'.collisions = []) : (k.fill e').collisions = [] := by
  have hchildren : ∀ c ∈ (k.fill e').children, c.collisions = [] :=
    forall_children_fill (fun c hc => Expr.collisions_of_mem_children hc h) h'
  have hroot : ∀ s, ¬(k.fill e').CollidesAt s := by
    rintro s ⟨v, hv⟩
    cases k with
    | value p s' =>
      cases hv
      exact Expr.valueField_ne_pattern h rfl
    | _ => cases hv
  refine List.eq_nil_iff_forall_not_mem.mpr ?_
  intro s hs
  rcases Expr.mem_collisions_iff.mp hs with hat | ⟨c, hc, hsc⟩
  · exact hroot s hat
  · rw [hchildren c hc] at hsc
    cases hsc

end Frame

/-! ## contexts -/

namespace Context

def keys (ks : Context) : List Key := ks.flatMap Frame.keys

/-- the address of the hole -/
def address (ks : Context) : Address := ⟨keys ks⟩

/-- the tree of a context around the tree of what is in its hole -/
def plant (n : Node) : Context → Node
  | [] => n
  | k :: ks => k.plant (plant n ks)

theorem node_fill (ks : Context) (e : Expr String) : (fill e ks).node = plant e.node ks := by
  induction ks with
  | nil => rfl
  | cons k ks ih => rw [fill, Frame.node_fill, ih, plant]

theorem collisions_of_fill {ks : Context} {e : Expr String} (h : (fill e ks).collisions = []) :
    e.collisions = [] := by
  induction ks with
  | nil => exact h
  | cons k ks ih => exact ih (Expr.collisions_of_mem_children (k.mem_children_fill _) h)

theorem collisions_fill {e e' : Expr String} (h' : e'.collisions = []) {ks : Context}
    (h : (fill e ks).collisions = []) : (fill e' ks).collisions = [] := by
  induction ks with
  | nil => exact h'
  | cons k ks ih =>
    have hinner := ih (Expr.collisions_of_mem_children (k.mem_children_fill _) h)
    exact Frame.collisions_fill h hinner

theorem slot {ks : Context} {e : Expr String} (h : (fill e ks).collisions = []) :
    Slot (fun n => plant n ks) (keys ks) := by
  induction ks with
  | nil => exact .here
  | cons k ks ih =>
    have hinner := ih (Expr.collisions_of_mem_children (k.mem_children_fill _) h)
    exact (Frame.slot h).comp hinner

end Context

/-! ## accepted sources -/

namespace Expr

/-- **Every position has a stable address, and lowering is local.**  The occurrences of subterms are
the holes of contexts.  In the tree of an expression of an accepted source, the address of a hole
holds the tree of the subterm that stands there.  With a subterm of any accepted source in its place
the expression compiles to the same tree, in which only that subtree is replaced. -/
theorem tree_at_positions {source : String} {es : List (Expr String)} (h : parse source = .ok es)
    {f : Expr String} (hf : f ∈ subtermsAll es) {t : Node} (ht : f.tree = .ok t) :
    (∀ e, e ∈ f.subterms ↔ ∃ ks : Context, ks.fill e = f) ∧
    ∀ (ks : Context) (e : Expr String), ks.fill e = f →
      (∃ u, e.tree = .ok u ∧ t.get? ks.address = some u) ∧
      ∀ {source' : String} {es' : List (Expr String)}, parse source' = .ok es' →
        ∀ e' ∈ subtermsAll es', ∀ u', e'.tree = .ok u' →
          (ks.fill e').tree = .ok (Node.graft u' ks.address.keys t) ∧
          (Node.graft u' ks.address.keys t).get? ks.address = some u' ∧
          ∀ a : Address, ¬ks.address.keys <+: a.keys → ¬a.keys <+: ks.address.keys →
            (Node.graft u' ks.address.keys t).get? a = t.get? a := by
  refine ⟨fun e => Context.mem_subterms_iff, ?_⟩
  rintro ks e rfl
  have hn : ∀ n ∈ (ks.fill e).identifiers, n ≠ "" :=
    fun n hn => (identifiers_of_mem_parse h hf n hn).ne_empty
  obtain ⟨hc, rfl⟩ := (tree_eq_ok_iff hn).mp ht
  have hslot := Context.slot hc
  rw [Context.node_fill]
  constructor
  · have he : ∀ n ∈ e.identifiers, n ≠ "" := fun n hne =>
      hn n (identifiers_of_mem_subterms (Context.mem_subterms_fill ks e) hne)
    exact ⟨e.node, (tree_eq_ok_iff he).mpr ⟨Context.collisions_of_fill hc, rfl⟩,
      hslot.follow e.node⟩
  · intro source' es' h' e' he' u' hu'
    have hn' : ∀ n ∈ e'.identifiers, n ≠ "" :=
      fun n hn => (identifiers_of_mem_parse h' he' n hn).ne_empty
    obtain ⟨hc', rfl⟩ := (tree_eq_ok_iff hn').mp hu'
    have hgraft : Node.graft e'.node ks.address.keys (Context.plant e.node ks) =
        Context.plant e'.node ks := hslot.graft e.node e'.node
    refine ⟨?_, ?_, ?_⟩
    · rw [hgraft, ← Context.node_fill]
      exact (tree_eq_ok_iff (Context.forall_identifiers_fill hn' ks hn)).mpr
        ⟨Context.collisions_fill hc' hc, rfl⟩
    · rw [hgraft]
      exact hslot.follow e'.node
    · intro a ha ha'
      exact Node.follow_graft_of_apart e'.node ha ha' _

/-- the operand of a call that is the value of a definition, in a function of two statements -/
theorem tree_at_operand_in_definition :
    ∃ (ks : Context) (e g : Expr String) (t : Node),
      parse "(program x (define y (f x)) y)" = .ok [ks.fill e] ∧ parse "nil" = .ok [g] ∧
      (ks.fill e).tree = .ok t ∧
      ks.address = ⟨[.field "body", .index 0, .field "y", .index 1]⟩ ∧
      t.get? ks.address = some (nameNode "x") ∧
      (ks.fill g).tree = .ok (Node.graft (literalNode .nil) ks.address.keys t) ∧
      (Node.graft (literalNode .nil) ks.address.keys t).get? ⟨[.field "body", .index 1]⟩ =
        some (nameNode "y") := by
  let x := var "x" ⟨24, 25⟩
  let y := var "y" ⟨28, 29⟩
  let ks : Context := [.statement (.name "x") [] [y] ⟨0, 30⟩, .value (.name "y") ⟨11, 27⟩,
    .operand (var "f" ⟨22, 23⟩) [] [] ⟨21, 26⟩]
  let g : Expr String := literal .nil ⟨0, 3⟩
  have hread : read "(program x (define y (f x)) y)" = .ok
      [.list [.symbol "program" ⟨1, 8⟩, .symbol "x" ⟨9, 10⟩,
        .list [.symbol "define" ⟨12, 18⟩, .symbol "y" ⟨19, 20⟩,
          .list [.symbol "f" ⟨22, 23⟩, .symbol "x" ⟨24, 25⟩] ⟨21, 26⟩] ⟨11, 27⟩,
        .symbol "y" ⟨28, 29⟩] ⟨0, 30⟩] := by decide +kernel
  have hread' : read "nil" = .ok [.literal .nil ⟨0, 3⟩] := by decide +kernel
  have h : parse "(program x (define y (f x)) y)" = .ok [ks.fill x] := parse_of_read hread rfl
  have h' : parse "nil" = .ok [g] := parse_of_read hread' rfl
  have hf : ks.fill x ∈ subtermsAll [ks.fill x] := by simp [subtermsAll, mem_subterms_self]
  have hg : g ∈ subtermsAll [g] := by simp [subtermsAll, mem_subterms_self]
  have ht : (ks.fill x).tree = .ok (ks.fill x).node := rfl
  obtain ⟨⟨u, hu, hget⟩, hput⟩ := (tree_at_positions h hf ht).2 ks x rfl
  obtain ⟨htree, _, hrest⟩ := hput h' g hg (literalNode .nil) rfl
  have hx : u = nameNode "x" := Except.ok.inj (hu.symm.trans rfl)
  refine ⟨ks, x, g, (ks.fill x).node, h, h', ht, rfl, hx ▸ hget, htree, ?_⟩
  exact (hrest ⟨[.field "body", .index 1]⟩ (by decide) (by decide)).trans rfl

end Expr

end TraceFront
