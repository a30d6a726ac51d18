import TraceFront.Compile.Form
import TraceFront.Proofs.Source.Identifiers
import TraceFront.Proofs.Tree.Conforming

/-!
# The trees of accepted sources

The tree of an expression is given here without tests and without failure, and apart from it the
definitions that collide.  Lowering is the two together: it fails at the first collision and else
returns the tree, under every test that lets well formed nodes through.

* `Expr.node`           the tree of an expression, whether or not a definition collides;
* `Expr.collisions`     the places of colliding definitions, in the order in which they are met;
* `outcome`             a value unless there is a collision;
* `Expr.treeWith_eq`    lowering is the outcome of the two, and `Expr.tree_eq_ok_iff` says when it
                        returns a tree;
* `mem_collisions`      a definition collides when it defines the name `pattern`;
* `node_all_conform`    without collisions every node of the tree conforms.

No node is rejected because the names that end up as fields come from the source, where no name is
empty, and a definition whose two fields would have the same name is a collision.
-/

set_option linter.unusedSectionVars false

namespace TraceFront

open Node

/-! ## the tree without tests -/

def nameNode (n : String) : Node := NodeType.reference.keyed [(.name, .leaf (.symbol n))]

def literalNode (l : Literal String) : Node :=
  NodeType.literal.keyed [(.value, .leaf (.constant l))]

/-- the body of a function: a single statement stands for itself -/
def bodyNode : List Node → Node
  | [n] => n
  | ns => NodeType.block.sequence ns

namespace Pattern

mutual

/-- the tree of a pattern -/
def node : Pattern String → Node
  | name n => nameNode n
  | wildcard => nameNode Vocabulary.wildcard
  | tuple ps => NodeType.tuple.sequence (nodes ps)

def nodes : List (Pattern String) → List Node
  | [] => []
  | p :: ps => p.node :: nodes ps

end

end Pattern

namespace Expr

mutual

/-- the tree of an expression -/
def node : Expr String → Node
  | program p body _ =>
    NodeType.program.keyed [(.pattern, p.node), (.body, bodyNode (nodes body))]
  | ifThen p t _ =>
    NodeType.conditional.keyed
      [(.predicate, p.node), (.consequent, t.node), (.alternative, literalNode .nil)]
  | ifThenElse p t e _ =>
    NodeType.conditional.keyed
      [(.predicate, p.node), (.consequent, t.node), (.alternative, e.node)]
  | block stmts _ => NodeType.block.sequence (nodes stmts)
  | define p v _ =>
    .keyed NodeType.definition.tag [(Field.pattern.text, p.node), (p.valueField, v.node)]
  | withAddress t e _ => NodeType.withAddress.keyed [(.tag, t.node), (.expression, e.node)]
  | tuple es _ => NodeType.tuple.sequence (nodes es)
  | apply f args _ => NodeType.application.sequence (f.node :: nodes args)
  | literal l _ => literalNode l
  | var n _ => nameNode n
  | this _ => NodeType.this.keyed []
  | splice e _ => NodeType.splice.keyed [(.expression, e.node)]
  | unquote e _ => NodeType.unquote.keyed [(.expression, e.node)]

def nodes : List (Expr String) → List Node
  | [] => []
  | e :: es => e.node :: nodes es

end

/-! ## collisions -/

mutual

/-- the places of the definitions whose value would stand under the name of their pattern's field,
in the order in which they are met -/
def collisions : Expr String → List Span
  | program _ body _ => collisionsAll body
  | ifThen p t _ => p.collisions ++ t.collisions
  | ifThenElse p t e _ => e.collisions ++ (p.collisions ++ t.collisions)
  | block stmts _ => collisionsAll stmts
  | define p v s => v.collisions ++ if p.valueField = Field.pattern.text then [s] else []
  | withAddress t e _ => t.collisions ++ e.collisions
  | tuple es _ => collisionsAll es
  | apply f args _ => f.collisions ++ collisionsAll args
  | literal _ _ => []
  | var _ _ => []
  | this _ => []
  | splice e _ => e.collisions
  | unquote e _ => e.collisions

def collisionsAll : List (Expr String) → List Span
  | [] => []
  | e :: es => e.collisions ++ collisionsAll es

end

theorem nodes_eq_map (es : List (Expr String)) : nodes es = es.map node := by
  induction es with
  | nil => rfl
  | cons e es ih => rw [nodes, ih, List.map_cons]

theorem mem_collisionsAll {s : Span} {es : List (Expr String)} :
    s ∈ collisionsAll es ↔ ∃ e ∈ es, s ∈ e.collisions := by
  induction es with
  | nil => simp [collisionsAll]
  | cons e es ih => simp [collisionsAll, ih]

end Expr

theorem Pattern.valueField_eq_pattern {p : Pattern String} :
    p.valueField = Field.pattern.text ↔ p = .name Field.pattern.text := by
  cases p with
  | name n => simp [valueField]
  | wildcard => simp [valueField, Field.text]
  | tuple ps => simp [valueField, Field.text]

namespace Expr

theorem valueField_ne_empty {p : Pattern String} {v : Expr String} {s : Span}
    (h : ∀ n ∈ (define p v s).identifiers, n ≠ "") : p.valueField ≠ "" := by
  cases p with
  | name n => exact h n List.mem_cons_self
  | wildcard => exact Field.definiens.text_ne_empty
  | tuple ps => exact Field.definiens.text_ne_empty

/-- the expression is itself a definition that collides -/
def CollidesAt (e : Expr String) (s : Span) : Prop := ∃ v, e = define (.name Field.pattern.text) v s

theorem mem_collisions_iff {s : Span} {e : Expr String} :
    s ∈ e.collisions ↔ e.CollidesAt s ∨ ∃ c ∈ e.children, s ∈ c.collisions := by
  cases e with
  | define p v s' =>
    by_cases hp : p.valueField = Field.pattern.text
    · obtain rfl := Pattern.valueField_eq_pattern.mp hp
      simp [collisions, children, CollidesAt, Pattern.valueField, or_comm, eq_comm]
    · have hp' := mt Pattern.valueField_eq_pattern.mpr hp
      simp [collisions, children, CollidesAt, hp, hp']
  | _ => simp [collisions, children, CollidesAt, mem_collisionsAll, or_assoc, or_comm]

/-- a collision is a definition of the name `pattern`, at any depth -/
theorem mem_collisions {s : Span} {e : Expr String} :
    s ∈ e.collisions ↔ ∃ v, define (.name Field.pattern.text) v s ∈ e.subterms := by
  induction e using childInduction with
  | step e ih =>
    rw [mem_collisions_iff]
    constructor
    · rintro (⟨v, rfl⟩ | ⟨c, hc, hs⟩)
      · exact ⟨v, mem_subterms_self _⟩
      · obtain ⟨v, hv⟩ := (ih c hc).mp hs
        exact ⟨v, mem_subterms.mpr (.inr ⟨c, hc, hv⟩)⟩
    · rintro ⟨v, hv⟩
      rcases mem_subterms.mp hv with rfl | ⟨c, hc, hv⟩
      · exact .inl ⟨v, rfl⟩
      · exact .inr ⟨c, hc, (ih c hc).mpr ⟨v, hv⟩⟩

end Expr

/-! ## lowering -/

/-- a value, unless there is a collision: then the first one is reported -/
def outcome {α : Type} (collisions : List Span) (a : α) : Except TreeError α :=
  match collisions with
  | [] => .ok a
  | s :: _ => .error (.fieldCollision Field.pattern.text s)

theorem outcome_bind {α β : Type} {ss ss' : List Span} {a : α} {f : α → Except TreeError β} {b : β}
    (h : f a = outcome ss' b) : (outcome ss a >>= f) = outcome (ss ++ ss') b := by
  cases ss with
  | nil => exact h
  | cons s ss => rfl

theorem outcome_bind_ok {α β : Type} {ss : List Span} {a : α} {f : α → Except TreeError β} {b : β}
    (h : f a = .ok b) : (outcome ss a >>= f) = outcome ss b := by
  cases ss with
  | nil => exact h
  | cons s ss => rfl

/-- the test lets every well formed node through -/
def Tolerant (accepts : Node → Bool) : Prop := ∀ n : Node, n.isWellFormed = true → accepts n = true

theorem Expr.treesWith_eq {accepts : Node → Bool} {es : List (Expr String)}
    (h : ∀ e ∈ es, e.treeWith accepts = outcome e.collisions e.node) :
    treesWith accepts es = outcome (collisionsAll es) (nodes es) := by
  induction es with
  | nil => rfl
  | cons e es ih =>
    obtain ⟨he, hes⟩ := List.forall_mem_cons.mp h
    rw [treesWith, he, ih hes]
    refine outcome_bind ?_
    exact outcome_bind_ok rfl

section
variable {accepts : Node → Bool} (ha : Tolerant accepts)
include ha

theorem checked_eq (owner : Expr String) {n : Node} (h : n.Conforms) :
    checked accepts owner n = .ok n :=
  if_pos (ha n h.wellFormed)

theorem nameTree_eq (owner : Expr String) (n : String) :
    nameTree accepts owner n = .ok (nameNode n) := by
  rw [nameTree, checked_eq ha owner (conforms_leaf _)]
  exact checked_eq ha owner (conforms_reference n)

theorem literalTree_eq (owner : Expr String) (l : Literal String) :
    literalTree accepts owner l = .ok (literalNode l) := by
  rw [literalTree, checked_eq ha owner (conforms_leaf _)]
  exact checked_eq ha owner (conforms_literal l)

theorem bodyTree_eq (owner : Expr String) (ns : List Node) :
    bodyTree accepts owner ns = .ok (bodyNode ns) := by
  unfold bodyTree
  split
  · rfl
  · rename_i hns
    rw [bodyNode]
    · exact checked_eq ha owner (conforms_block ns)
    · exact hns

mutual

theorem Pattern.treeWith_eq (owner : Expr String) : ∀ p :
    Pattern String, p.treeWith accepts owner = .ok p.node
  | .name n => nameTree_eq ha owner n
  | .wildcard => nameTree_eq ha owner Vocabulary.wildcard
  | .tuple ps => by
    rw [Pattern.treeWith, Pattern.treesWith_eq owner ps]
    exact if_pos (ha _ (conforms_tuple _).wellFormed)

theorem Pattern.treesWith_eq (owner : Expr String) :
    ∀ ps : List (Pattern String), Pattern.treesWith accepts owner ps = .ok (Pattern.nodes ps)
  | [] => rfl
  | p :: ps => by
    rw [Pattern.treesWith, Pattern.treeWith_eq owner p, Pattern.treesWith_eq owner ps]
    rfl

end

theorem definitionTree_eq {p : Pattern String} (hp : p.valueField ≠ "") (v : Expr String) (s : Span)
    (pattern value : Node) :
    definitionTree accepts (.define p v s) p pattern value =
      outcome (if p.valueField = Field.pattern.text then [s] else [])
        (.keyed NodeType.definition.tag
          [(Field.pattern.text, pattern), (p.valueField, value)]) := by
  unfold definitionTree
  by_cases hc : p.valueField = Field.pattern.text
  · rw [if_pos hc, if_pos hc, hc]
    rfl
  · rw [if_neg hc, if_neg hc]
    exact checked_eq ha _ (conforms_definition hp hc pattern value)

namespace Expr

/-- lowering stops at the first collision and returns the tree if there is none -/
theorem treeWith_eq {e : Expr String} (hn : ∀ n ∈ e.identifiers, n ≠ "") :
    e.treeWith accepts = outcome e.collisions e.node := by
  induction e using childInduction with
  | step e ih =>
    have child : ∀ c ∈ e.children, c.treeWith accepts = outcome c.collisions c.node :=
      fun c hc => ih c hc fun n hcn => hn n (identifiers_of_mem_children hc hcn)
    have all : ∀ es, (∀ c ∈ es, c ∈ e.children) →
        treesWith accepts es = outcome (collisionsAll es) (nodes es) :=
      fun es hes => treesWith_eq fun c hc => child c (hes c hc)
    cases e with
    | program p body s =>
      rw [treeWith, Pattern.treeWith_eq ha, all body fun c hc => hc]
      refine outcome_bind_ok ?_
      rw [bodyTree_eq ha]
      exact checked_eq ha _ (conforms_keyed rfl)
    | ifThen p t s =>
      rw [treeWith, literalTree_eq ha, child p (by simp [children]), child t (by simp [children])]
      refine outcome_bind (outcome_bind_ok ?_)
      exact checked_eq ha _ (conforms_keyed rfl)
    | ifThenElse p t e s =>
      -- the alternative is lowered first, so that its collisions come first
      rw [treeWith, child e (by simp [children]), child p (by simp [children]),
        child t (by simp [children])]
      refine outcome_bind (outcome_bind (outcome_bind_ok ?_))
      exact checked_eq ha _ (conforms_keyed rfl)
    | block stmts s =>
      rw [treeWith, all stmts fun c hc => hc]
      exact outcome_bind_ok (checked_eq ha _ (conforms_block _))
    | define p v s =>
      rw [treeWith, Pattern.treeWith_eq ha, child v (by simp [children])]
      exact outcome_bind (definitionTree_eq ha (valueField_ne_empty hn) v s _ _)
    | withAddress t e s =>
      rw [treeWith, child t (by simp [children]), child e (by simp [children])]
      refine outcome_bind (outcome_bind_ok ?_)
      exact checked_eq ha _ (conforms_keyed rfl)
    | tuple es s =>
      rw [treeWith, all es fun c hc => hc]
      exact outcome_bind_ok (checked_eq ha _ (conforms_tuple _))
    | apply f args s =>
      rw [treeWith, child f (by simp [children]), all args fun c hc => List.mem_cons_of_mem _ hc]
      refine outcome_bind (outcome_bind_ok ?_)
      exact checked_eq ha _ (conforms_sequence rfl fun _ => List.cons_ne_nil _ _)
    | literal l s => exact literalTree_eq ha _ l
    | var n s => exact nameTree_eq ha _ n
    | this s => exact checked_eq ha _ (conforms_keyed rfl)
    | splice e s =>
      rw [treeWith, child e (by simp [children])]
      exact outcome_bind_ok (checked_eq ha _ (conforms_keyed rfl))
    | unquote e s =>
      rw [treeWith, child e (by simp [children])]
      exact outcome_bind_ok (checked_eq ha _ (conforms_keyed rfl))

end Expr

end

theorem Expr.tree_eq_ok_iff {e : Expr String} (hn : ∀ n ∈ e.identifiers, n ≠ "") {t : Node} :
    e.tree = .ok t ↔ e.collisions = [] ∧ e.node = t := by
  have htree : e.tree = outcome e.collisions e.node := treeWith_eq (fun _ h => h) hn
  rw [htree]
  cases e.collisions with
  | nil => exact ⟨fun h => ⟨rfl, Except.ok.inj h⟩, fun h => congrArg Except.ok h.2⟩
  | cons s ss =>
    constructor
    · rintro ⟨⟩
    · rintro ⟨⟨⟩, _⟩

/-! ## conforming trees -/

theorem leaf_all_conform (v : Value) : (leaf v).All Conforms :=
  .intro (conforms_leaf v) (List.forall_mem_nil _)

theorem nameNode_all_conform (n : String) : (nameNode n).All Conforms :=
  .ofType (conforms_reference n) (List.forall_mem_singleton.mpr (leaf_all_conform _))

theorem literalNode_all_conform (l : Literal String) : (literalNode l).All Conforms :=
  .ofType (conforms_literal l) (List.forall_mem_singleton.mpr (leaf_all_conform _))

theorem bodyNode_all_conform {ns : List Node} (h : ∀ n ∈ ns, n.All Conforms) :
    (bodyNode ns).All Conforms := by
  unfold bodyNode
  split
  · exact h _ List.mem_cons_self
  · exact .intro (conforms_block _) h

mutual

theorem Pattern.node_all_conform : ∀ p : Pattern String, p.node.All Conforms
  | .name n => nameNode_all_conform n
  | .wildcard => nameNode_all_conform Vocabulary.wildcard
  | .tuple ps => .intro (conforms_tuple _) (Pattern.nodes_all_conform ps)

theorem Pattern.nodes_all_conform :
    ∀ ps : List (Pattern String), ∀ n ∈ Pattern.nodes ps, n.All Conforms
  | [] => List.forall_mem_nil _
  | p :: ps => List.forall_mem_cons.mpr ⟨Pattern.node_all_conform p, Pattern.nodes_all_conform ps⟩

end

namespace Expr

theorem collisions_of_mem_children {c e : Expr String} (hc : c ∈ e.children)
    (h : e.collisions = []) : c.collisions = [] := by
  refine List.eq_nil_iff_forall_not_mem.mpr ?_
  intro s hs
  have hmem : s ∈ e.collisions := mem_collisions_iff.mpr (.inr ⟨c, hc, hs⟩)
  rw [h] at hmem
  cases hmem

theorem valueField_ne_pattern {p : Pattern String} {v : Expr String} {s : Span}
    (h : (define p v s).collisions = []) : p.valueField ≠ Field.pattern.text := by
  intro hp
  have hmem : s ∈ (define p v s).collisions :=
    mem_collisions_iff.mpr (.inl ⟨v, by rw [Pattern.valueField_eq_pattern.mp hp]⟩)
  rw [h] at hmem
  cases hmem

theorem node_all_conform {e : Expr String} (hn : ∀ n ∈ e.identifiers, n ≠ "")
    (hc : e.collisions = []) : e.node.All Conforms := by
  induction e using childInduction with
  | step e ih =>
    have child : ∀ c ∈ e.children, c.node.All Conforms := fun c hce =>
      ih c hce (fun n hcn => hn n (identifiers_of_mem_children hce hcn))
        (collisions_of_mem_children hce hc)
    have all : ∀ es, (∀ c ∈ es, c ∈ e.children) → ∀ n ∈ nodes es, n.All Conforms := by
      intro es hes n hnodes
      rw [nodes_eq_map] at hnodes
      obtain ⟨c, hce, rfl⟩ := List.mem_map.mp hnodes
      exact child c (hes c hce)
    have pair : ∀ {f g : Field} {m n : Node}, m.All Conforms → n.All Conforms →
        ∀ p ∈ [(f, m), (g, n)], p.2.All Conforms := fun hm hn =>
      List.forall_mem_cons.mpr ⟨hm, List.forall_mem_singleton.mpr hn⟩
    cases e with
    | program p body s =>
      refine .ofType (conforms_keyed rfl) (pair p.node_all_conform ?_)
      exact bodyNode_all_conform (all body fun c hce => hce)
    | ifThen p t s =>
      refine .ofType (conforms_keyed rfl) (List.forall_mem_cons.mpr
        ⟨child p (by simp [children]), pair (child t (by simp [children])) ?_⟩)
      exact literalNode_all_conform .nil
    | ifThenElse p t e s =>
      refine .ofType (conforms_keyed rfl) (List.forall_mem_cons.mpr
        ⟨child p (by simp [children]), pair (child t (by simp [children])) ?_⟩)
      exact child e (by simp [children])
    | block stmts s => exact .intro (conforms_block _) (all stmts fun c hce => hce)
    | define p v s =>
      -- the one node that has a name of the source among its fields
      refine .keyed (conforms_definition (valueField_ne_empty hn) (valueField_ne_pattern hc) _ _) ?_
      exact List.forall_mem_cons.mpr ⟨p.node_all_conform,
        List.forall_mem_singleton.mpr (child v (by simp [children]))⟩
    | withAddress t e s =>
      exact .ofType (conforms_keyed rfl)
        (pair (child t (by simp [children])) (child e (by simp [children])))
    | tuple es s => exact .intro (conforms_tuple _) (all es fun c hce => hce)
    | apply f args s =>
      refine .intro (conforms_sequence rfl fun _ => List.cons_ne_nil _ _) ?_
      exact List.forall_mem_cons.mpr ⟨child f (by simp [children]),
        all args fun c hce => List.mem_cons_of_mem _ hce⟩
    | literal l s => exact literalNode_all_conform l
    | var n s => exact nameNode_all_conform n
    | this s => exact .ofType (conforms_keyed rfl) (List.forall_mem_nil _)
    | splice e s =>
      exact .ofType (conforms_keyed rfl)
        (List.forall_mem_singleton.mpr (child e (by simp [children])))
    | unquote e s =>
      exact .ofType (conforms_keyed rfl)
        (List.forall_mem_singleton.mpr (child e (by simp [children])))

/-! ## accepted sources -/

theorem tolerant_test (check : Bool) :
    Tolerant { Options.default with checkNodes := check }.test := by
  intro n hn
  cases check with
  | false => rfl
  | true => exact hn

/-- **Lowering of accepted source never produces a malformed tree.**  The test of nodes makes no
difference and rejects none.  The only failure is a collision: it happens exactly if some definition
inside defines the name `pattern`, and it is reported at such a definition.  Without one every node
of the tree is well formed and the tree has the right shape. -/
theorem tree_of_parse {source : String} {es : List (Expr String)} (h : parse source = .ok es)
    {e : Expr String} (he : e ∈ subtermsAll es) :
    (∀ check, e.treeWith { Options.default with checkNodes := check }.test = e.tree) ∧
    (∀ tag term dump s, e.tree ≠ .error (.rejectedNode tag term dump s)) ∧
    ((∃ n s, e.tree = .error (.fieldCollision n s)) ↔
      ∃ v s, define (.name "pattern") v s ∈ e.subterms) ∧
    (∀ n s, e.tree = .error (.fieldCollision n s) →
      n = "pattern" ∧ ∃ v, define (.name "pattern") v s ∈ e.subterms) ∧
    ((¬∃ v s, define (.name "pattern") v s ∈ e.subterms) →
      ∃ t, e.tree = .ok t ∧ t.All (·.isWellFormed = true) ∧ t.shapeError? = none) := by
  have hn : ∀ n ∈ e.identifiers, n ≠ "" := fun n hn => (identifiers_of_mem_parse h he n hn).ne_empty
  have htree : e.tree = outcome e.collisions e.node := treeWith_eq (fun _ h => h) hn
  have hmem : ∀ {s}, s ∈ e.collisions ↔ ∃ v, define (.name "pattern") v s ∈ e.subterms :=
    mem_collisions
  refine ⟨fun check => ?_, ?_⟩
  · rw [htree]
    exact treeWith_eq (tolerant_test check) hn
  · rw [htree]
    cases hc : e.collisions with
    | nil =>
      have hnone : ¬∃ v s, define (.name "pattern") v s ∈ e.subterms := by
        rintro ⟨v, s, hv⟩
        have hs := hmem.mpr ⟨v, hv⟩
        rw [hc] at hs
        cases hs
      have hall := node_all_conform hn hc
      refine ⟨?_, iff_of_false ?_ hnone, ?_, fun _ => ⟨e.node, rfl, ?_, ?_⟩⟩
      · rintro tag term dump s ⟨⟩
      · rintro ⟨n, s, ⟨⟩⟩
      · rintro n s ⟨⟩
      · exact hall.mono fun _ hm => hm.wellFormed
      · exact shapeError?_eq_none (hall.mono fun _ hm => hm.noProblem)
    | cons s ss =>
      have hfirst : ∃ v, define (.name "pattern") v s ∈ e.subterms :=
        hmem.mp (hc ▸ List.mem_cons_self)
      obtain ⟨v, hv⟩ := hfirst
      refine ⟨?_, iff_of_true ⟨_, s, rfl⟩ ⟨v, s, hv⟩, ?_, fun hno => absurd ⟨v, s, hv⟩ hno⟩
      · rintro tag term dump s ⟨⟩
      · rintro n s' ⟨⟩
        exact ⟨rfl, v, hv⟩

/-- in a tuple the name `pattern` may be defined, by itself it may not -/
theorem tree_of_pattern_in_tuple_and_alone :
    ∃ e f, parse "(define [pattern] x) (block (define pattern y))" = .ok [e, f] ∧
      (∃ t, e.tree = .ok t ∧ t.All (·.isWellFormed = true) ∧ t.shapeError? = none) ∧
        ∃ n s, f.tree = .error (.fieldCollision n s) := by
  let e := define (.tuple [.name "pattern"]) (var "x" ⟨18, 19⟩) ⟨0, 20⟩
  let d := define (.name "pattern") (var "y" ⟨44, 45⟩) ⟨28, 46⟩
  let f := block [d] ⟨21, 47⟩
  have hread : read "(define [pattern] x) (block (define pattern y))" = .ok
      [.list [.symbol "define" ⟨1, 7⟩, .vector [.symbol "pattern" ⟨9, 16⟩] ⟨8, 17⟩,
          .symbol "x" ⟨18, 19⟩] ⟨0, 20⟩,
        .list [.symbol "block" ⟨22, 27⟩, .list [.symbol "define" ⟨29, 35⟩,
          .symbol "pattern" ⟨36, 43⟩, .symbol "y" ⟨44, 45⟩] ⟨28, 46⟩] ⟨21, 47⟩] := by decide +kernel
  have h : parse "(define [pattern] x) (block (define pattern y))" = .ok [e, f] :=
    parse_of_read hread rfl
  have he : e ∈ subtermsAll [e, f] := by simp [subtermsAll, mem_subterms_self]
  have hf : f ∈ subtermsAll [e, f] := by simp [subtermsAll, mem_subterms_self]
  refine ⟨e, f, h, (tree_of_parse h he).2.2.2.2 ?_, (tree_of_parse h hf).2.2.1.mpr ?_⟩
  · simp [e, subterms]
  · exact ⟨var "y" ⟨44, 45⟩, ⟨28, 46⟩, by simp [f, d, subterms, subtermsAll]⟩

end Expr

end TraceFront
