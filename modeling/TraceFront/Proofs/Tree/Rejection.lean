import TraceFront.Proofs.Tree.Lowering
import TraceFront.Proofs.Tree.Walk

/-!
# The test covers every node

Each form builds its nodes along a way of its own: leaves, the `nil` of a missing alternative, the
block around a body, the parts of a pattern.  On all of them a node is tested as soon as it is built,
and so after the nodes below it.

* `Node.subtrees`       the nodes of a tree, each with everything below it;
* `Judged`              what building a value from some trees can come to under a test: the value, if
                        all nodes of the trees pass; a node that fails, all nodes below it passing; or
                        a collision;
* `Judged.bind`         one step of building after another;
* `Expr.judged`         lowering under any test at all is judged by the nodes of the tree.
-/

namespace TraceFront

namespace Node

/-- the nodes of a tree, parents first -/
def subtrees (n : Node) : List Node := n.walk.map (·.2)

theorem all_iff_subtrees {P : Node → Prop} {n : Node} : n.All P ↔ ∀ m ∈ n.subtrees, P m := by
  rw [all_iff_walk, subtrees]
  exact List.forall_mem_map.symm

theorem mem_subtrees_self (n : Node) : n ∈ n.subtrees := by
  rw [subtrees, walk_eq_visit, visit_eq]
  exact List.mem_cons_self

theorem All.all {P : Node → Prop} {n : Node} (h : n.All P) : n.All fun m => m.All P := by
  induction h with
  | intro root parts ih => exact .intro (.intro root parts) ih

theorem mem_subtrees_trans {n m c : Node} (hm : m ∈ n.subtrees) (hc : c ∈ m.subtrees) :
    c ∈ n.subtrees := by
  -- being a node of `n` is a property that all nodes of `n` have
  have hall : n.All (· ∈ n.subtrees) := all_iff_subtrees.mpr fun _ h => h
  exact all_iff_subtrees.mp (all_iff_subtrees.mp hall.all m hm) c hc

theorem mem_subtrees_of_mem_parts {n m : Node} (h : m ∈ n.parts) : m ∈ n.subtrees := by
  have hall : n.All (· ∈ n.subtrees) := all_iff_subtrees.mpr fun _ h => h
  exact (hall.parts m h).root

end Node

open Node

/-! ## what building comes to -/

section
variable (accepts : Node → Bool)

/-- all nodes of the tree pass the test -/
def Passes (n : Node) : Prop := n.All (accepts · = true)

/-- the outcomes of building the value `a` from the trees `ms`, if the definitions at the places `ss`
collide -/
inductive Judged {α : Type} (ss : List Span) (ms : List Node) (a : α) : Except TreeError α → Prop
  | passed (free : ss = []) (passes : ∀ m ∈ ms, Passes accepts m) : Judged ss ms a (.ok a)
  | failed {m n : Node} (tree : m ∈ ms) (node : n ∈ m.subtrees) (fails : accepts n = false)
      (below : ∀ c ∈ n.parts, Passes accepts c) (term : String) (s : Span) :
      Judged ss ms a (.error (n.rejected term s))
  | collided {s : Span} (place : s ∈ ss) :
      Judged ss ms a (.error (.fieldCollision Field.pattern.text s))

end

namespace Judged

variable {accepts : Node → Bool} {α β : Type} {ss ss' : List Span} {ms ms' : List Node}

theorem bind {a : α} {b : β} {x : Except TreeError α} {f : α → Except TreeError β}
    (hx : Judged accepts ss ms a x) (hss : ∀ s ∈ ss, s ∈ ss')
    (hms : ∀ m ∈ ms, ∃ t ∈ ms', m ∈ t.subtrees)
    (hf : ss = [] → (∀ m ∈ ms, Passes accepts m) → Judged accepts ss' ms' b (f a)) :
    Judged accepts ss' ms' b (x >>= f) := by
  cases hx with
  | passed free passes => exact hf free passes
  | failed tree node fails below term s =>
    obtain ⟨t, ht, hm⟩ := hms _ tree
    exact .failed ht (mem_subtrees_trans hm node) fails below term s
  | collided place => exact .collided (hss _ place)

/-- a step that builds parts of the tree `t` -/
theorem bindParts {a : α} {t : Node} {x : Except TreeError α} {f : α → Except TreeError Node}
    (hx : Judged accepts ss ms a x) (hss : ∀ s ∈ ss, s ∈ ss') (hms : ∀ m ∈ ms, m ∈ t.subtrees)
    (hf : ss = [] → (∀ m ∈ ms, Passes accepts m) → Judged accepts ss' [t] t (f a)) :
    Judged accepts ss' [t] t (x >>= f) :=
  hx.bind hss (fun m hm => ⟨t, List.mem_singleton.mpr rfl, hms m hm⟩) hf

/-- a step that builds one part of the tree `t` -/
theorem bindPart {n t : Node} {x : Except TreeError Node} {f : Node → Except TreeError Node}
    (hx : Judged accepts ss [n] n x) (hss : ∀ s ∈ ss, s ∈ ss') (hn : n ∈ t.subtrees)
    (hf : ss = [] → Passes accepts n → Judged accepts ss' [t] t (f n)) :
    Judged accepts ss' [t] t (x >>= f) :=
  hx.bindParts hss (List.forall_mem_singleton.mpr hn)
    fun hfree hall => hf hfree (List.forall_mem_singleton.mp hall)

end Judged

/-! ## the steps -/

theorem parts_keyed (tag : String) (fields : List (String × Node)) :
    (Node.keyed tag fields).parts = fields.map (·.2) := by
  cases fields <;> rfl

theorem parts_ofType (t : NodeType) (fields : List (Field × Node)) :
    (t.keyed fields).parts = fields.map (·.2) := by
  rw [NodeType.keyed, parts_keyed, List.map_map]
  rfl

theorem mem_subtrees_ofType (t : NodeType) {fields : List (Field × Node)} {f : Field} {n : Node}
    (h : (f, n) ∈ fields) : n ∈ (t.keyed fields).subtrees := by
  refine mem_subtrees_of_mem_parts ?_
  rw [parts_ofType]
  exact List.mem_map.mpr ⟨(f, n), h, rfl⟩

theorem mem_subtrees_bodyNode {ns : List Node} {n : Node} (h : n ∈ ns) :
    n ∈ (bodyNode ns).subtrees := by
  unfold bodyNode
  split
  · rw [List.mem_singleton.mp h]
    exact mem_subtrees_self _
  · exact mem_subtrees_of_mem_parts h

section
variable {accepts : Node → Bool}

/-- the node is tested after its parts -/
theorem judged_test {ss : List Span} (hss : ss = []) {t : Node}
    (hparts : ∀ m ∈ t.parts, Passes accepts m) (term : String) (s : Span) :
    Judged accepts ss [t] t (if accepts t then .ok t else .error (t.rejected term s)) := by
  split
  · rename_i ht
    exact .passed hss (List.forall_mem_singleton.mpr (.intro ht hparts))
  · rename_i ht
    rw [Bool.not_eq_true] at ht
    exact .failed (List.mem_singleton.mpr rfl) t.mem_subtrees_self ht hparts term s

theorem judged_checked {ss : List Span} (hss : ss = []) (owner : Expr String) {t : Node}
    (hparts : ∀ m ∈ t.parts, Passes accepts m) :
    Judged accepts ss [t] t (checked accepts owner t) :=
  judged_test hss hparts owner.render owner.span

theorem judged_checked_ofType {ss : List Span} (hss : ss = []) (owner : Expr String) (t : NodeType)
    {fields : List (Field × Node)} (hfields : ∀ f ∈ fields, Passes accepts f.2) :
    Judged accepts ss [t.keyed fields] (t.keyed fields) (checked accepts owner (t.keyed fields)) := by
  refine judged_checked hss owner ?_
  rw [parts_ofType]
  exact List.forall_mem_map.mpr hfields

/-- a value in a leaf under a node of its own -/
theorem judged_leaf (owner : Expr String) (t : NodeType) (f : Field) (v : Value) :
    Judged accepts [] [t.keyed [(f, .leaf v)]] (t.keyed [(f, .leaf v)])
      (checked accepts owner (.leaf v) >>= fun leaf => checked accepts owner (t.keyed [(f, leaf)])) := by
  have hleaf : Judged accepts [] [.leaf v] (.leaf v) (checked accepts owner (.leaf v)) :=
    judged_checked rfl owner (List.forall_mem_nil _)
  refine hleaf.bindPart (List.forall_mem_nil _) (mem_subtrees_ofType t List.mem_cons_self) ?_
  intro _ hpass
  exact judged_checked_ofType rfl owner t (List.forall_mem_singleton.mpr hpass)

theorem judged_nameTree (owner : Expr String) (n : String) :
    Judged accepts [] [nameNode n] (nameNode n) (nameTree accepts owner n) :=
  judged_leaf owner .reference .name (.symbol n)

theorem judged_literalTree (owner : Expr String) (l : Literal String) :
    Judged accepts [] [literalNode l] (literalNode l) (literalTree accepts owner l) :=
  judged_leaf owner .literal .value (.constant l)

theorem judged_bodyTree (owner : Expr String) {ns : List Node} (h : ∀ n ∈ ns, Passes accepts n) :
    Judged accepts [] [bodyNode ns] (bodyNode ns) (bodyTree accepts owner ns) := by
  unfold bodyTree
  split
  · exact .passed rfl h
  · rename_i hns
    rw [bodyNode]
    · exact judged_checked rfl owner h
    · exact hns

mutual

theorem Pattern.judged (owner : Expr String) :
    ∀ p : Pattern String, Judged accepts [] [p.node] p.node (p.treeWith accepts owner)
  | .name n => judged_nameTree owner n
  | .wildcard => judged_nameTree owner Vocabulary.wildcard
  | .tuple ps => by
    rw [Pattern.treeWith]
    refine (Pattern.judgedAll owner ps).bindParts (List.forall_mem_nil _)
      (fun m hm => mem_subtrees_of_mem_parts hm) ?_
    intro _ hpass
    have hparts : ∀ m ∈ (NodeType.tuple.sequence (Pattern.nodes ps)).parts, Passes accepts m := hpass
    exact judged_test rfl hparts _ _

theorem Pattern.judgedAll (owner : Expr String) : ∀ ps : List (Pattern String),
    Judged accepts [] (Pattern.nodes ps) (Pattern.nodes ps) (Pattern.treesWith accepts owner ps)
  | [] => .passed rfl (List.forall_mem_nil _)
  | p :: ps => by
    rw [Pattern.treesWith]
    refine (Pattern.judged owner p).bind (List.forall_mem_nil _) ?_ ?_
    · exact fun m hm => ⟨m, List.mem_cons.mpr (.inl (List.mem_singleton.mp hm)), m.mem_subtrees_self⟩
    intro _ hfirst
    refine (Pattern.judgedAll owner ps).bind (List.forall_mem_nil _) ?_ ?_
    · exact fun m hm => ⟨m, List.mem_cons_of_mem _ hm, m.mem_subtrees_self⟩
    intro _ hrest
    exact .passed rfl (List.forall_mem_cons.mpr ⟨List.forall_mem_singleton.mp hfirst, hrest⟩)

end

theorem judged_definitionTree (p : Pattern String) {v : Expr String} {s : Span}
    (hv : v.collisions = []) (hpattern : Passes accepts p.node) (hvalue : Passes accepts v.node) :
    Judged accepts (Expr.define p v s).collisions [(Expr.define p v s).node] (Expr.define p v s).node
      (definitionTree accepts (.define p v s) p p.node v.node) := by
  unfold definitionTree
  by_cases hp : p.valueField = Field.pattern.text
  · have hplace : s ∈ (Expr.define p v s).collisions :=
      Expr.mem_collisions_iff.mpr (.inl ⟨v, by rw [Pattern.valueField_eq_pattern.mp hp]⟩)
    rw [if_pos hp, hp]
    exact .collided hplace
  · rw [if_neg hp]
    have hfree : (Expr.define p v s).collisions = [] := by
      rw [Expr.collisions, hv, if_neg hp, List.append_nil]
    have hparts : (Expr.define p v s).node.parts = [p.node, v.node] := parts_keyed _ _
    refine judged_checked hfree _ ?_
    rw [hparts]
    exact List.forall_mem_cons.mpr ⟨hpattern, List.forall_mem_singleton.mpr hvalue⟩

namespace Expr

theorem judged_treesWith {es : List (Expr String)}
    (h : ∀ e ∈ es, Judged accepts e.collisions [e.node] e.node (e.treeWith accepts)) :
    Judged accepts (collisionsAll es) (nodes es) (nodes es) (treesWith accepts es) := by
  induction es with
  | nil => exact .passed rfl (List.forall_mem_nil _)
  | cons e es ih =>
    obtain ⟨he, hes⟩ := List.forall_mem_cons.mp h
    rw [treesWith]
    refine he.bind (fun s hs => List.mem_append_left _ hs) ?_ ?_
    · exact fun m hm => ⟨m, List.mem_cons.mpr (.inl (List.mem_singleton.mp hm)), m.mem_subtrees_self⟩
    intro hfree hfirst
    refine (ih hes).bind (fun s hs => List.mem_append_right _ hs) ?_ ?_
    · exact fun m hm => ⟨m, List.mem_cons_of_mem _ hm, m.mem_subtrees_self⟩
    intro hfree' hrest
    refine .passed ?_ (List.forall_mem_cons.mpr ⟨List.forall_mem_singleton.mp hfirst, hrest⟩)
    rw [collisionsAll, hfree, hfree']
    rfl

/-- lowering under any test is judged by the nodes of the tree and by its collisions -/
theorem judged (e : Expr String) :
    Judged accepts e.collisions [e.node] e.node (e.treeWith accepts) := by
  induction e using childInduction with
  | step e child =>
    have all : ∀ es, (∀ c ∈ es, c ∈ e.children) →
        Judged accepts (collisionsAll es) (nodes es) (nodes es) (treesWith accepts es) :=
      fun es hes => judged_treesWith fun c hc => child c (hes c hc)
    cases e with
    | program p body s =>
      rw [treeWith]
      refine (p.judged _).bindPart (List.forall_mem_nil _)
        (mem_subtrees_ofType .program List.mem_cons_self) ?_
      intro _ hpattern
      have hbody : bodyNode (nodes body) ∈ (program p body s).node.subtrees :=
        mem_subtrees_ofType .program (f := .body) (by simp)
      refine (all body fun c hc => hc).bindParts (fun _ hs => hs)
        (fun m hm => mem_subtrees_trans hbody (mem_subtrees_bodyNode hm)) ?_
      intro hfree hnodes
      refine (judged_bodyTree _ hnodes).bindPart (List.forall_mem_nil _) hbody ?_
      intro _ hblock
      exact judged_checked_ofType hfree _ .program
        (List.forall_mem_cons.mpr ⟨hpattern, List.forall_mem_singleton.mpr hblock⟩)
    | ifThen p t s =>
      rw [treeWith]
      refine (judged_literalTree _ .nil).bindPart (List.forall_mem_nil _)
        (mem_subtrees_ofType .conditional (f := .alternative) (by simp)) ?_
      intro _ halternative
      refine (child p (by simp [children])).bindPart (fun s hs => List.mem_append_left _ hs)
        (mem_subtrees_ofType .conditional (f := .predicate) (by simp)) ?_
      intro hfree hpredicate
      refine (child t (by simp [children])).bindPart (fun s hs => List.mem_append_right _ hs)
        (mem_subtrees_ofType .conditional (f := .consequent) (by simp)) ?_
      intro hfree' hconsequent
      refine judged_checked_ofType ?_ _ .conditional ?_
      · rw [collisions, hfree, hfree']
        rfl
      · exact List.forall_mem_cons.mpr ⟨hpredicate, List.forall_mem_cons.mpr ⟨hconsequent,
          List.forall_mem_singleton.mpr halternative⟩⟩
    | ifThenElse p t e s =>
      rw [treeWith]
      refine (child e (by simp [children])).bindPart (fun s hs => List.mem_append_left _ hs)
        (mem_subtrees_ofType .conditional (f := .alternative) (by simp)) ?_
      intro hfree halternative
      refine (child p (by simp [children])).bindPart
        (fun s hs => List.mem_append_right _ (List.mem_append_left _ hs))
        (mem_subtrees_ofType .conditional (f := .predicate) (by simp)) ?_
      intro hfree' hpredicate
      refine (child t (by simp [children])).bindPart
        (fun s hs => List.mem_append_right _ (List.mem_append_right _ hs))
        (mem_subtrees_ofType .conditional (f := .consequent) (by simp)) ?_
      intro hfree'' hconsequent
      refine judged_checked_ofType ?_ _ .conditional ?_
      · rw [collisions, hfree, hfree', hfree'']
        rfl
      · exact List.forall_mem_cons.mpr ⟨hpredicate, List.forall_mem_cons.mpr ⟨hconsequent,
          List.forall_mem_singleton.mpr halternative⟩⟩
    | block stmts s =>
      rw [treeWith]
      refine (all stmts fun c hc => hc).bindParts (fun _ hs => hs)
        (fun m hm => mem_subtrees_of_mem_parts hm) ?_
      intro hfree hpass
      exact judged_checked hfree _ hpass
    | define p v s =>
      have hparts : (define p v s).node.parts = [p.node, v.node] := parts_keyed _ _
      rw [treeWith]
      refine (p.judged _).bindPart (List.forall_mem_nil _)
        (mem_subtrees_of_mem_parts (by rw [hparts]; exact List.mem_cons_self)) ?_
      intro _ hpattern
      refine (child v (by simp [children])).bindPart (fun s hs => List.mem_append_left _ hs)
        (mem_subtrees_of_mem_parts (by rw [hparts]; simp)) ?_
      intro hfree hvalue
      exact judged_definitionTree p hfree hpattern hvalue
    | withAddress t e s =>
      rw [treeWith]
      refine (child t (by simp [children])).bindPart (fun s hs => List.mem_append_left _ hs)
        (mem_subtrees_ofType .withAddress (f := .tag) (by simp)) ?_
      intro hfree htag
      refine (child e (by simp [children])).bindPart (fun s hs => List.mem_append_right _ hs)
        (mem_subtrees_ofType .withAddress (f := .expression) (by simp)) ?_
      intro hfree' hinner
      refine judged_checked_ofType ?_ _ .withAddress
        (List.forall_mem_cons.mpr ⟨htag, List.forall_mem_singleton.mpr hinner⟩)
      rw [collisions, hfree, hfree']
      rfl
    | tuple es s =>
      rw [treeWith]
      refine (all es fun c hc => hc).bindParts (fun _ hs => hs)
        (fun m hm => mem_subtrees_of_mem_parts hm) ?_
      intro hfree hpass
      exact judged_checked hfree _ hpass
    | apply f args s =>
      rw [treeWith]
      refine (child f (by simp [children])).bindPart (fun s hs => List.mem_append_left _ hs)
        (mem_subtrees_of_mem_parts List.mem_cons_self) ?_
      intro hfree hfunction
      refine (all args fun c hc => List.mem_cons_of_mem _ hc).bindParts
        (fun s hs => List.mem_append_right _ hs)
        (fun m hm => mem_subtrees_of_mem_parts (List.mem_cons_of_mem _ hm)) ?_
      intro hfree' harguments
      refine judged_checked ?_ _ (List.forall_mem_cons.mpr ⟨hfunction, harguments⟩)
      rw [collisions, hfree, hfree']
      rfl
    | literal l s => exact judged_literalTree _ l
    | var n s => exact judged_nameTree _ n
    | this s => exact judged_checked_ofType rfl _ .this (List.forall_mem_nil _)
    | splice e s =>
      rw [treeWith]
      refine (child e (by simp [children])).bindPart (fun _ hs => hs)
        (mem_subtrees_ofType .splice (f := .expression) (by simp)) ?_
      intro hfree hinner
      exact judged_checked_ofType hfree _ .splice (List.forall_mem_singleton.mpr hinner)
    | unquote e s =>
      rw [treeWith]
      refine (child e (by simp [children])).bindPart (fun _ hs => hs)
        (mem_subtrees_ofType .unquote (f := .expression) (by simp)) ?_
      intro hfree hinner
      exact judged_checked_ofType hfree _ .unquote (List.forall_mem_singleton.mpr hinner)

end Expr

end

/-! ## with the test and without -/

/-- a tree that is built passes the test, and nothing in it collides -/
theorem Judged.of_ok {accepts : Node → Bool} {ss : List Span} {n t : Node}
    {x : Except TreeError Node} (h : Judged accepts ss [n] n x) (hx : x = .ok t) :
    ss = [] ∧ t = n ∧ Passes accepts n := by
  cases h with
  | passed free passes =>
    cases hx
    exact ⟨free, rfl, List.forall_mem_singleton.mp passes⟩
  | failed tree node fails below term s => cases hx
  | collided place => cases hx

namespace Expr

/-- **Every node is tested.**  If an expression has a tree when nothing is tested, then under a test
it has the same tree exactly if all nodes pass; otherwise a node is reported that fails while all
nodes below it pass. -/
theorem treeWith_test_of_untested (o : Options) {e : Expr String} {t : Node}
    (h : e.treeWith { o with checkNodes := false }.test = .ok t) :
    (e.treeWith { o with checkNodes := true }.test = .ok t ↔
      ∀ n ∈ t.subtrees, o.accepts n = true) ∧
    ((¬∀ n ∈ t.subtrees, o.accepts n = true) →
      ∃ n ∈ t.subtrees, o.accepts n = false ∧
        (∀ m ∈ n.parts, ∀ c ∈ m.subtrees, o.accepts c = true) ∧
        ∃ term s, e.treeWith { o with checkNodes := true }.test =
          .error (.rejectedNode (n.tag.getD "leaf") term n.render s)) := by
  obtain ⟨hfree, rfl, -⟩ := e.judged.of_ok h
  have hjudged : Judged o.accepts e.collisions [e.node] e.node
      (e.treeWith { o with checkNodes := true }.test) := e.judged
  rw [hfree] at hjudged
  generalize e.treeWith { o with checkNodes := true }.test = x at hjudged
  cases hjudged with
  | passed free passes =>
    have hall : ∀ n ∈ e.node.subtrees, o.accepts n = true :=
      all_iff_subtrees.mp (List.forall_mem_singleton.mp passes)
    exact ⟨⟨fun _ => hall, fun _ => rfl⟩, fun hnot => absurd hall hnot⟩
  | failed tree node fails below term s =>
    rename_i m n
    obtain rfl := List.mem_singleton.mp tree
    have hnot : ¬∀ n ∈ e.node.subtrees, o.accepts n = true := by
      intro hall
      rw [hall n node] at fails
      cases fails
    have hbelow : ∀ m ∈ n.parts, ∀ c ∈ m.subtrees, o.accepts c = true :=
      fun m hm => all_iff_subtrees.mp (below m hm)
    refine ⟨⟨fun hx => ?_, fun hall => absurd hall hnot⟩, fun _ => ?_⟩
    · cases hx
    · exact ⟨n, node, fails, hbelow, term, s, rfl⟩
  | collided place => cases place

/-- the tuple in `(f (tuple 1))` is refused, and the nodes below it are not -/
theorem treeWith_test_refuses_tuple :
    let o : Options := { Options.default with accepts := fun n => !n.hasTag "tuple" }
    let e : Expr String := .apply (.var "f" ⟨1, 2⟩)
      [.tuple [.literal (.int 1) ⟨10, 11⟩] ⟨3, 12⟩] ⟨0, 13⟩
    e.treeWith { o with checkNodes := false }.test = .ok e.node ∧
    (¬∀ n ∈ e.node.subtrees, o.accepts n = true) ∧
    ∃ n ∈ e.node.subtrees, o.accepts n = false ∧
      (∀ m ∈ n.parts, ∀ c ∈ m.subtrees, o.accepts c = true) ∧
      ∃ term s, e.treeWith { o with checkNodes := true }.test =
        .error (.rejectedNode (n.tag.getD "leaf") term n.render s) := by
  intro o e
  have huntested : e.treeWith { o with checkNodes := false }.test = .ok e.node := rfl
  have htuple : NodeType.tuple.sequence [literalNode (.int 1)] ∈ e.node.subtrees :=
    mem_subtrees_of_mem_parts (List.mem_cons_of_mem _ List.mem_cons_self)
  have hnot : ¬∀ n ∈ e.node.subtrees, o.accepts n = true := by
    intro hall
    cases hall _ htuple
  exact ⟨huntested, hnot, (treeWith_test_of_untested o huntested).2 hnot⟩

end Expr

end TraceFront
