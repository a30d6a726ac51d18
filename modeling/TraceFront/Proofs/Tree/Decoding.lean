import TraceFront.Proofs.Expr.Alike
import TraceFront.Proofs.Tree.Positions

/-!
# What a tree says about its expression

A tree tells the expression that it was made from, up to the places of its parts and the two ways of
writing that `Expr.Alike` is about.

* `Node.toPattern?`, `Node.toExpr?`   a pattern and an expression that have a given tree;
* `Pattern.toPattern?_node`           the pattern is the only one;
* `Expr.recovered`                    the expression is alike to every other one;
* `Alike.node_eq`                     alike expressions have the same tree.

The wildcard shares its node with names.  It is told apart by its spelling, which no name of a
source has.
-/

namespace TraceFront

namespace Node

def symbol? (n : Node) : Option String :=
  match n.value with
  | some (.symbol s) => some s
  | _ => none

def constant? (n : Node) : Option (Literal String) :=
  match n.value with
  | some (.constant l) => some l
  | _ => none

mutual

/-- the pattern with a given tree -/
def toPattern? : Node → Option (Pattern String)
  | ⟨tag, _, children⟩ =>
    match tag.bind NodeType.ofTag?, children with
    | some .reference, .keyed [(_, leaf)] =>
      leaf.symbol?.map fun n => if n = Vocabulary.wildcard then .wildcard else .name n
    | some .tuple, .sequence ns => (toPatterns? ns).map .tuple
    | _, _ => none

def toPatterns? : List Node → Option (List (Pattern String))
  | [] => some []
  | n :: ns => do return (← n.toPattern?) :: (← toPatterns? ns)

end

/-- the place of an expression that stands in no source -/
def nowhere : Span := ⟨0, 0⟩

mutual

/-- an expression with a given tree; every choice has an alternative, and every function a body of
one statement -/
def toExpr? : Node → Option (Expr String)
  | ⟨tag, _, children⟩ =>
    match tag.bind NodeType.ofTag?, children with
    | some .program, .keyed [(_, p), (_, b)] => do
      return .program (← p.toPattern?) [← b.toExpr?] nowhere
    | some .conditional, .keyed [(_, p), (_, t), (_, e)] => do
      return .ifThenElse (← p.toExpr?) (← t.toExpr?) (← e.toExpr?) nowhere
    | some .block, .sequence ns => (toExprs? ns).map (.block · nowhere)
    | some .withAddress, .keyed [(_, t), (_, e)] => do
      return .withAddress (← t.toExpr?) (← e.toExpr?) nowhere
    | some .definition, .keyed [(_, p), (_, v)] => do
      return .define (← p.toPattern?) (← v.toExpr?) nowhere
    | some .application, .sequence (f :: ns) => do
      return .apply (← f.toExpr?) (← toExprs? ns) nowhere
    | some .tuple, .sequence ns => (toExprs? ns).map (.tuple · nowhere)
    | some .literal, .keyed [(_, leaf)] => leaf.constant?.map (.literal · nowhere)
    | some .reference, .keyed [(_, leaf)] => leaf.symbol?.map (.var · nowhere)
    | some .this, .none => some (.this nowhere)
    | some .splice, .keyed [(_, e)] => e.toExpr?.map (.splice · nowhere)
    | some .unquote, .keyed [(_, e)] => e.toExpr?.map (.unquote · nowhere)
    | _, _ => none

def toExprs? : List Node → Option (List (Expr String))
  | [] => some []
  | n :: ns => do return (← n.toExpr?) :: (← toExprs? ns)

end

end Node

open Node

/-! ## patterns -/

mutual

theorem Pattern.toPattern?_node :
    ∀ p : Pattern String, (∀ n ∈ p.binders, n ≠ Vocabulary.wildcard) → p.node.toPattern? = some p
  | .name n, h => by
    have hn : n ≠ Vocabulary.wildcard := h n List.mem_cons_self
    show some (if n = Vocabulary.wildcard then Pattern.wildcard else .name n) = _
    rw [if_neg hn]
  | .wildcard, _ => rfl
  | .tuple ps, h => by
    show (toPatterns? (Pattern.nodes ps)).map Pattern.tuple = _
    rw [Pattern.toPatterns?_nodes ps h]
    rfl

theorem Pattern.toPatterns?_nodes :
    ∀ ps : List (Pattern String), (∀ n ∈ Pattern.bindersAll ps, n ≠ Vocabulary.wildcard) →
      toPatterns? (Pattern.nodes ps) = some ps
  | [], _ => rfl
  | p :: ps, h => by
    obtain ⟨hp, hps⟩ := List.forall_mem_append.mp h
    rw [Pattern.nodes, toPatterns?, Pattern.toPattern?_node p hp, Pattern.toPatterns?_nodes ps hps]
    rfl

end

/-! ## expressions -/

namespace Expr

/-- the tree leads back to an expression that is alike -/
def Recovered (e : Expr String) : Prop := ∃ e', e.node.toExpr? = some e' ∧ e.Alike e'

theorem toExprs?_nodes {es : List (Expr String)} (h : ∀ e ∈ es, e.Recovered) :
    ∃ es', toExprs? (nodes es) = some es' ∧ List.Forall₂ Alike es es' := by
  induction es with
  | nil => exact ⟨[], rfl, .nil⟩
  | cons e es ih =>
    obtain ⟨he, hes⟩ := List.forall_mem_cons.mp h
    obtain ⟨e', he', halike⟩ := he
    obtain ⟨es', hes', hall⟩ := ih hes
    refine ⟨e' :: es', ?_, .cons halike hall⟩
    rw [nodes, toExprs?, he', hes']
    rfl

theorem Alike.andMoved {e f : Expr String} (h : e.Alike f) (s : Span) : e.Alike (f.moved s) :=
  h.trans (.moved f s)

theorem Alike.block {es fs : List (Expr String)} (h : List.Forall₂ Alike es fs) (s : Span) :
    Alike (block es s) (block fs s) :=
  congrList (fun l => Expr.block l s) (fun before after _ _ => .inside (.inBlock before after s)) h

/-- the body of a function is read back as a single statement -/
theorem toExpr?_bodyNode (p : Pattern String) (body : List (Expr String))
    (h : ∀ e ∈ body, e.Recovered) (s : Span) : ∃ b, (bodyNode (nodes body)).toExpr? = some b ∧
      Alike (program p body s) (program p [b] s) := by
  by_cases hone : body.length = 1
  · obtain ⟨e, rfl⟩ := List.length_eq_one_iff.mp hone
    obtain ⟨e', he', halike⟩ := h e List.mem_cons_self
    exact ⟨e', he', .inside (.statement p [] [] s) halike⟩
  · obtain ⟨es, hes, hall⟩ := toExprs?_nodes h
    rw [bodyNode_of_length_ne_one (by rwa [length_nodes])]
    refine ⟨Expr.block es nowhere, ?_, ?_⟩
    · show (toExprs? (nodes body)).map (Expr.block · nowhere) = _
      rw [hes]
      rfl
    · have hblock : Alike (Expr.block body nowhere) (Expr.block es nowhere) := .block hall nowhere
      exact (Alike.wrapped p s nowhere hone).trans (.inside (.statement p [] [] s) hblock)

/-- an expression without the wildcard among its names is recovered from its tree -/
theorem recovered {e : Expr String} (h : ∀ n ∈ e.identifiers, n ≠ Vocabulary.wildcard) :
    e.Recovered := by
  induction e using childInduction with
  | step e ih =>
    have child : ∀ c ∈ e.children, c.Recovered := fun c hc =>
      ih c hc fun n hn => h n (identifiers_of_mem_children hc hn)
    have all : ∀ es, (∀ c ∈ es, c ∈ e.children) →
        ∃ es', toExprs? (nodes es) = some es' ∧ List.Forall₂ Alike es es' :=
      fun es hes => toExprs?_nodes fun c hc => child c (hes c hc)
    cases e with
    | program p body s =>
      obtain ⟨b, hb, halike⟩ := toExpr?_bodyNode p body child s
      have hp := p.toPattern?_node fun n hn => h n (List.mem_append_left _ hn)
      refine ⟨program p [b] nowhere, ?_, halike.andMoved nowhere⟩
      show (do
        return Expr.program (← p.node.toPattern?) [← (bodyNode (nodes body)).toExpr?] nowhere) = _
      rw [hp, hb]
      rfl
    | ifThen p t s =>
      -- the tree has an alternative, which is read back
      obtain ⟨p', hp, hpp⟩ := child p (by simp [children])
      obtain ⟨t', ht, htt⟩ := child t (by simp [children])
      refine ⟨ifThenElse p' t' (literal .nil nowhere) nowhere, ?_, ?_⟩
      · show (do
          return Expr.ifThenElse (← p.node.toExpr?) (← t.node.toExpr?)
            (← (literalNode .nil).toExpr?) nowhere) = _
        rw [hp, ht]
        rfl
      · exact (((Alike.missing p t s nowhere).trans (.inside (.condition _ _ s) hpp)).trans
          (.inside (.consequent _ _ s) htt)).andMoved nowhere
    | ifThenElse p t f s =>
      obtain ⟨p', hp, hpp⟩ := child p (by simp [children])
      obtain ⟨t', ht, htt⟩ := child t (by simp [children])
      obtain ⟨f', hf, hff⟩ := child f (by simp [children])
      refine ⟨ifThenElse p' t' f' nowhere, ?_, ?_⟩
      · show (do
          return Expr.ifThenElse (← p.node.toExpr?) (← t.node.toExpr?) (← f.node.toExpr?) nowhere) = _
        rw [hp, ht, hf]
        rfl
      · exact ((Alike.inside (.condition _ _ s) hpp).trans ((Alike.inside (.consequent _ _ s) htt).trans
          (.inside (.alternative _ _ s) hff))).andMoved nowhere
    | block stmts s =>
      obtain ⟨es, hes, hall⟩ := all stmts fun c hc => hc
      refine ⟨block es nowhere, ?_, (Alike.block hall s).andMoved nowhere⟩
      show (toExprs? (nodes stmts)).map (Expr.block · nowhere) = _
      rw [hes]
      rfl
    | define p v s =>
      obtain ⟨v', hv, hvv⟩ := child v (by simp [children])
      have hp := p.toPattern?_node fun n hn => h n (List.mem_append_left _ hn)
      refine ⟨define p v' nowhere, ?_, (Alike.inside (.value p s) hvv).andMoved nowhere⟩
      show (do return Expr.define (← p.node.toPattern?) (← v.node.toExpr?) nowhere) = _
      rw [hp, hv]
      rfl
    | withAddress t f s =>
      obtain ⟨t', ht, htt⟩ := child t (by simp [children])
      obtain ⟨f', hf, hff⟩ := child f (by simp [children])
      refine ⟨withAddress t' f' nowhere, ?_, ?_⟩
      · show (do return Expr.withAddress (← t.node.toExpr?) (← f.node.toExpr?) nowhere) = _
        rw [ht, hf]
        rfl
      · exact ((Alike.inside (.tag _ s) htt).trans (.inside (.tagged _ s) hff)).andMoved nowhere
    | tuple es s =>
      obtain ⟨fs, hfs, hall⟩ := all es fun c hc => hc
      refine ⟨tuple fs nowhere, ?_, ?_⟩
      · show (toExprs? (nodes es)).map (Expr.tuple · nowhere) = _
        rw [hfs]
        rfl
      · exact (Alike.congrList (fun l => tuple l s)
          (fun before after _ _ => .inside (.inTuple before after s)) hall).andMoved nowhere
    | apply f args s =>
      obtain ⟨f', hf, hff⟩ := child f (by simp [children])
      obtain ⟨args', hargs, hall⟩ := all args fun c hc => List.mem_cons_of_mem _ hc
      refine ⟨apply f' args' nowhere, ?_, ?_⟩
      · show (do return Expr.apply (← f.node.toExpr?) (← toExprs? (nodes args)) nowhere) = _
        rw [hf, hargs]
        rfl
      · exact ((Alike.inside (.operator args s) hff).trans (Alike.congrList (fun l => apply f' l s)
          (fun before after _ _ => .inside (.operand f' before after s)) hall)).andMoved nowhere
    | literal l s => exact ⟨literal l nowhere, rfl, .moved _ nowhere⟩
    | var n s => exact ⟨var n nowhere, rfl, .moved _ nowhere⟩
    | this s => exact ⟨this nowhere, rfl, .moved _ nowhere⟩
    | splice f s =>
      obtain ⟨f', hf, hff⟩ := child f (by simp [children])
      refine ⟨splice f' nowhere, ?_, (Alike.inside (.spliced s) hff).andMoved nowhere⟩
      show f.node.toExpr?.map (Expr.splice · nowhere) = _
      rw [hf]
      rfl
    | unquote f s =>
      obtain ⟨f', hf, hff⟩ := child f (by simp [children])
      refine ⟨unquote f' nowhere, ?_, (Alike.inside (.unquoted s) hff).andMoved nowhere⟩
      show f.node.toExpr?.map (Expr.unquote · nowhere) = _
      rw [hf]
      rfl

theorem Alike.node_eq {e f : Expr String} (h : e.Alike f) : e.node = f.node := by
  induction h with
  | moved e s => cases e <;> rfl
  | missing p t s s' => rfl
  | @wrapped p stmts s s' hlength =>
    have hbody : bodyNode (nodes stmts) = NodeType.block.sequence (nodes stmts) :=
      bodyNode_of_length_ne_one (by rwa [length_nodes])
    rw [node, hbody]
    rfl
  | inside k _ ih => rw [Frame.node_fill, Frame.node_fill, ih]
  | symm _ ih => exact ih.symm
  | trans _ _ ih ih' => exact ih.trans ih'

theorem alike_of_node_eq {e f : Expr String} (he : ∀ n ∈ e.identifiers, n ≠ Vocabulary.wildcard)
    (hf : ∀ n ∈ f.identifiers, n ≠ Vocabulary.wildcard) (h : e.node = f.node) : e.Alike f := by
  obtain ⟨e', hdecode, halike⟩ := recovered he
  obtain ⟨f', hdecode', halike'⟩ := recovered hf
  rw [h, hdecode'] at hdecode
  cases hdecode
  exact halike.trans halike'.symm

/-! ## accepted sources -/

/-- **A tree loses exactly two differences of writing.**  Expressions of accepted sources have the
same tree exactly if they are alike, and an expression that is alike can be read off the tree. -/
theorem tree_eq_iff_alike {source₁ source₂ : String} {es₁ es₂ : List (Expr String)}
    (h₁ : parse source₁ = .ok es₁) (h₂ : parse source₂ = .ok es₂) {e₁ e₂ : Expr String}
    (he₁ : e₁ ∈ subtermsAll es₁) (he₂ : e₂ ∈ subtermsAll es₂) {t₁ t₂ : Node}
    (ht₁ : e₁.tree = .ok t₁) (ht₂ : e₂.tree = .ok t₂) :
    (t₁ = t₂ ↔ e₁.Alike e₂) ∧ ∃ e, t₁.toExpr? = some e ∧ e₁.Alike e := by
  have hid₁ := identifiers_of_mem_parse h₁ he₁
  have hid₂ := identifiers_of_mem_parse h₂ he₂
  obtain ⟨_, rfl⟩ := (tree_eq_ok_iff fun n hn => (hid₁ n hn).ne_empty).mp ht₁
  obtain ⟨_, rfl⟩ := (tree_eq_ok_iff fun n hn => (hid₂ n hn).ne_empty).mp ht₂
  have hw₁ : ∀ n ∈ e₁.identifiers, n ≠ Vocabulary.wildcard := fun n hn => (hid₁ n hn).not_wildcard
  have hw₂ : ∀ n ∈ e₂.identifiers, n ≠ Vocabulary.wildcard := fun n hn => (hid₂ n hn).not_wildcard
  exact ⟨⟨alike_of_node_eq hw₁ hw₂, Alike.node_eq⟩, recovered hw₁⟩

/-- two statements may be a block, and the alternative of the choice may be left out, but a block of
one statement is not the statement -/
theorem tree_eq_iff_alike_two_statements_and_one :
    ∃ e₁ f₁ e₂ f₂, parse "(program x y (if y x)) (program x y)" = .ok [e₁, f₁] ∧
      parse "(program x (block y (if y x nil))) (program x (block y))" = .ok [e₂, f₂] ∧
      e₁.Alike e₂ ∧ ¬f₁.Alike f₂ := by
  let e₁ := program (.name "x") [var "y" ⟨11, 12⟩,
    ifThen (var "y" ⟨17, 18⟩) (var "x" ⟨19, 20⟩) ⟨13, 21⟩] ⟨0, 22⟩
  let f₁ := program (.name "x") [var "y" ⟨34, 35⟩] ⟨23, 36⟩
  let e₂ := program (.name "x") [block [var "y" ⟨18, 19⟩,
    ifThenElse (var "y" ⟨24, 25⟩) (var "x" ⟨26, 27⟩) (literal .nil ⟨28, 31⟩) ⟨20, 32⟩] ⟨11, 33⟩]
    ⟨0, 34⟩
  let f₂ := program (.name "x") [block [var "y" ⟨53, 54⟩] ⟨46, 55⟩] ⟨35, 56⟩
  have hread₁ : read "(program x y (if y x)) (program x y)" = .ok
      [.list [.symbol "program" ⟨1, 8⟩, .symbol "x" ⟨9, 10⟩, .symbol "y" ⟨11, 12⟩,
          .list [.symbol "if" ⟨14, 16⟩, .symbol "y" ⟨17, 18⟩, .symbol "x" ⟨19, 20⟩] ⟨13, 21⟩]
          ⟨0, 22⟩,
        .list [.symbol "program" ⟨24, 31⟩, .symbol "x" ⟨32, 33⟩, .symbol "y" ⟨34, 35⟩]
          ⟨23, 36⟩] := by
    decide +kernel
  have hread₂ : read "(program x (block y (if y x nil))) (program x (block y))" = .ok
      [.list [.symbol "program" ⟨1, 8⟩, .symbol "x" ⟨9, 10⟩,
          .list [.symbol "block" ⟨12, 17⟩, .symbol "y" ⟨18, 19⟩, .list [.symbol "if" ⟨21, 23⟩,
            .symbol "y" ⟨24, 25⟩, .symbol "x" ⟨26, 27⟩, .literal .nil ⟨28, 31⟩] ⟨20, 32⟩] ⟨11, 33⟩]
          ⟨0, 34⟩,
        .list [.symbol "program" ⟨36, 43⟩, .symbol "x" ⟨44, 45⟩,
          .list [.symbol "block" ⟨47, 52⟩, .symbol "y" ⟨53, 54⟩] ⟨46, 55⟩] ⟨35, 56⟩] := by
    decide +kernel
  have h₁ : parse "(program x y (if y x)) (program x y)" = .ok [e₁, f₁] := parse_of_read hread₁ rfl
  have h₂ : parse "(program x (block y (if y x nil))) (program x (block y))" = .ok [e₂, f₂] :=
    parse_of_read hread₂ rfl
  have he₁ : e₁ ∈ subtermsAll [e₁, f₁] := by simp [subtermsAll, mem_subterms_self]
  have hf₁ : f₁ ∈ subtermsAll [e₁, f₁] := by simp [subtermsAll, mem_subterms_self]
  have he₂ : e₂ ∈ subtermsAll [e₂, f₂] := by simp [subtermsAll, mem_subterms_self]
  have hf₂ : f₂ ∈ subtermsAll [e₂, f₂] := by simp [subtermsAll, mem_subterms_self]
  refine ⟨e₁, f₁, e₂, f₂, h₁, h₂, ?_, ?_⟩
  · have ht₁ : e₁.tree = .ok e₁.node := rfl
    have ht₂ : e₂.tree = .ok e₂.node := rfl
    exact (tree_eq_iff_alike h₁ h₂ he₁ he₂ ht₁ ht₂).1.mp rfl
  · intro halike
    have htree : f₁.node = f₂.node :=
      (tree_eq_iff_alike h₁ h₂ hf₁ hf₂ rfl rfl).1.mpr halike
    exact absurd htree (by decide)

end Expr

end TraceFront
