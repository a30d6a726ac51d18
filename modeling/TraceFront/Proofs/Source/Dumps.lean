import TraceFront.Proofs.Expr.Refusals
import TraceFront.Proofs.Source.Addresses
import TraceFront.Proofs.Source.Printing
import TraceFront.Proofs.Tree.Dump

/-!
# The dumps of compiled sources

The trees of a source are plain: their names are atoms of the source, and so are their literals, apart
from strings, which are shown with escapes.  Therefore a dump tells the tree that it shows, unless
there are fractions in it.

* `Expr.plain_node`          the tree of an expression with plain names and literals is plain;
* `literal_plain_of_parse`   the literals of a source are plain, apart from fractions;
* `Node.NoFloats`            no leaf of the tree holds a fraction;
* `Expr.tree_render_eq_iff`   then the dump tells the tree.
-/

namespace TraceFront

open Node

/-! ## plain trees of expressions -/

theorem plain_ofType {t : NodeType} {fields : List (Field × Node)} (h : ∀ f ∈ fields, f.2.Plain)
    (hl : t ≠ .literal := by decide) (hr : t ≠ .reference := by decide)
    (hs : t.isSequence = false := by decide) : (t.keyed fields).Plain :=
  .fields hl hr hs (List.forall_mem_map.mpr fun f _ => inLine_fieldText f.1)
    (List.forall_mem_map.mpr h)

theorem plain_nameNode {n : String} (h : InLine n.toList) : (nameNode n).Plain := .value (.symbol h)

theorem plain_literalNode {l : Literal String} (h : l.Plain) : (literalNode l).Plain :=
  .value (.literal h)

theorem plain_bodyNode {ns : List Node} (h : ∀ n ∈ ns, n.Plain) : (bodyNode ns).Plain := by
  unfold bodyNode
  split
  · exact h _ List.mem_cons_self
  · exact .sequence rfl h

mutual

theorem Pattern.plain_node : ∀ p : Pattern String, (∀ n ∈ p.binders, InLine n.toList) → p.node.Plain
  | .name n, h => plain_nameNode (h n List.mem_cons_self)
  | .wildcard, _ => plain_nameNode ⟨by decide, by decide⟩
  | .tuple ps, h => .sequence rfl (Pattern.plain_nodes ps h)

theorem Pattern.plain_nodes :
    ∀ ps : List (Pattern String), (∀ n ∈ bindersAll ps, InLine n.toList) → ∀ n ∈ nodes ps, n.Plain
  | [], _ => List.forall_mem_nil _
  | p :: ps, h => by
    obtain ⟨hp, hps⟩ := List.forall_mem_append.mp h
    exact List.forall_mem_cons.mpr ⟨Pattern.plain_node p hp, Pattern.plain_nodes ps hps⟩

end

namespace Expr

theorem plain_node {e : Expr String} (hn : ∀ n ∈ e.identifiers, InLine n.toList)
    (hl : ∀ l s, literal l s ∈ e.subterms → l.Plain) : e.node.Plain := by
  induction e using childInduction with
  | step e ih =>
    have child : ∀ c ∈ e.children, c.node.Plain := fun c hc =>
      ih c hc (fun n hcn => hn n (identifiers_of_mem_children hc hcn))
        fun l s hcl => hl l s (mem_subterms.mpr (.inr ⟨c, hc, hcl⟩))
    have all : ∀ es, (∀ c ∈ es, c ∈ e.children) → ∀ n ∈ nodes es, n.Plain := by
      intro es hes
      rw [nodes_eq_map]
      exact List.forall_mem_map.mpr fun c hc => child c (hes c hc)
    have pair : ∀ {f g : Field} {m n : Node}, m.Plain → n.Plain →
        ∀ p ∈ [(f, m), (g, n)], p.2.Plain := fun hm hn =>
      List.forall_mem_cons.mpr ⟨hm, List.forall_mem_singleton.mpr hn⟩
    cases e with
    | program p body s =>
      have hp : p.node.Plain := p.plain_node (List.forall_mem_append.mp hn).1
      exact plain_ofType (pair hp (plain_bodyNode (all body fun c hc => hc)))
    | ifThen p t s =>
      refine plain_ofType (List.forall_mem_cons.mpr
        ⟨child p (by simp [children]), pair (child t (by simp [children])) ?_⟩)
      exact plain_literalNode (l := .nil) trivial
    | ifThenElse p t e s =>
      refine plain_ofType (List.forall_mem_cons.mpr
        ⟨child p (by simp [children]), pair (child t (by simp [children])) ?_⟩)
      exact child e (by simp [children])
    | block stmts s => exact .sequence rfl (all stmts fun c hc => hc)
    | define p v s =>
      -- the one node that has a name of the source among its fields
      have hbinders := (List.forall_mem_append.mp hn).1
      have hfield : InLine p.valueField.toList := by
        cases p with
        | name n => exact hbinders n List.mem_cons_self
        | wildcard => exact inLine_fieldText .definiens
        | tuple ps => exact inLine_fieldText .definiens
      refine .fields (by decide) (by decide) (by decide) ?_ ?_
      · exact List.forall_mem_cons.mpr ⟨inLine_fieldText .pattern,
          List.forall_mem_singleton.mpr hfield⟩
      · exact List.forall_mem_cons.mpr ⟨p.plain_node hbinders,
          List.forall_mem_singleton.mpr (child v (by simp [children]))⟩
    | withAddress t e s =>
      exact plain_ofType (pair (child t (by simp [children])) (child e (by simp [children])))
    | tuple es s => exact .sequence rfl (all es fun c hc => hc)
    | apply f args s =>
      exact .sequence rfl (List.forall_mem_cons.mpr ⟨child f (by simp [children]),
        all args fun c hc => List.mem_cons_of_mem _ hc⟩)
    | literal l s => exact plain_literalNode (hl l s (mem_subterms_self _))
    | var n s => exact plain_nameNode (hn n List.mem_cons_self)
    | this s => exact plain_ofType (List.forall_mem_nil _)
    | splice e s => exact plain_ofType (List.forall_mem_singleton.mpr (child e (by simp [children])))
    | unquote e s =>
      exact plain_ofType (List.forall_mem_singleton.mpr (child e (by simp [children])))

end Expr

/-! ## literals of accepted sources -/

/-- no leaf of the tree holds a fraction -/
def Node.NoFloats (t : Node) : Prop := t.All fun n => ∀ x, n.value ≠ some (.constant (.float x))

namespace Expr

/-- a literal of a source is one of the datums that were read -/
theorem exists_datum_of_literal {source : String} {es : List (Expr String)}
    (h : parse source = .ok es)
    {l : Literal String} {s : Span} (hl : literal l s ∈ subtermsAll es) :
    ∃ ds, read source = .ok ds ∧ ∃ d ∈ ds, l ∈ d.literals := by
  obtain ⟨ds, hread, hrecognized⟩ := parse_eq_ok h
  obtain ⟨e, he, hle⟩ := mem_subtermsAll.mp hl
  obtain ⟨d, hd, hde⟩ := exists_of_mem_ofDatums hrecognized he
  obtain ⟨c, hc, hcl⟩ := exists_spelling hde hle
  cases spelled_of_ofDatum hcl with
  | literal _ _ =>
    exact ⟨ds, hread, d, hd, Datum.literals_of_mem_subterms hc.mem_subterms (List.mem_singleton_self _)⟩

theorem literal_plain_of_parse {source : String} {es : List (Expr String)}
    (h : parse source = .ok es)
    {l : Literal String} {s : Span} (hl : literal l s ∈ subtermsAll es) (hx : ∀ x, l ≠ .float x) :
    l.Plain := by
  obtain ⟨ds, hread, d, hd, hld⟩ := exists_datum_of_literal h hl
  cases l with
  | float x => exact hx x rfl
  | keyword k => exact read_keywords hread d hd k hld
  | _ => trivial

/-- the literals of an expression stand in its tree -/
theorem ne_float_of_noFloats {e : Expr String} (hfree : e.collisions = []) (h : e.node.NoFloats)
    {l : Literal String} {s : Span} (hl : literal l s ∈ e.subterms) : ∀ x, l ≠ .float x := by
  rintro x rfl
  have hnode : (literalNode (.float x)).NoFloats :=
    all_iff_subtrees.mp h.all _ (node_mem_subtrees hfree hl)
  have hleaf := hnode.parts _ List.mem_cons_self
  exact hleaf.root x rfl

theorem plain_of_parse {source : String} {es : List (Expr String)} (h : parse source = .ok es)
    {e : Expr String}
    (he : e ∈ subtermsAll es) {accepts : Node → Bool} {t : Node} (ht : e.treeWith accepts = .ok t)
    (hf : t.NoFloats) : t.Plain := by
  obtain ⟨hfree, rfl, -⟩ := e.judged.of_ok ht
  refine plain_node (fun n hn => ?_) fun l s hl => ?_
  · exact inLine_of_atomChars (identifiers_of_mem_parse h he n hn).text.atomChars
  · obtain ⟨f, hf', hef⟩ := mem_subtermsAll.mp he
    have hmem : literal l s ∈ subtermsAll es := mem_subtermsAll.mpr ⟨f, hf', mem_subterms_trans hl hef⟩
    exact literal_plain_of_parse h hmem (ne_float_of_noFloats hfree hf hl)

/-! ## dumps -/

/-- **A dump tells its tree.**  Trees that are made of accepted sources, under whatever tests of their
nodes, and that hold no fractions have equal dumps exactly if they are equal. -/
theorem tree_render_eq_iff {source₁ source₂ : String} {es₁ es₂ : List (Expr String)}
    (h₁ : parse source₁ = .ok es₁) (h₂ : parse source₂ = .ok es₂) {e₁ e₂ : Expr String}
    (he₁ : e₁ ∈ subtermsAll es₁) (he₂ : e₂ ∈ subtermsAll es₂) {accepts₁ accepts₂ : Node → Bool}
    {t₁ t₂ : Node} (ht₁ : e₁.treeWith accepts₁ = .ok t₁) (ht₂ : e₂.treeWith accepts₂ = .ok t₂)
    (hf₁ : t₁.NoFloats) (hf₂ : t₂.NoFloats) : t₁.render = t₂.render ↔ t₁ = t₂ := by
  constructor
  · exact (plain_of_parse h₁ he₁ ht₁ hf₁).render_injective (plain_of_parse h₂ he₂ ht₂ hf₂)
  · exact congrArg Node.render

/-- a string with the line of a second part in it, and a tuple with this part -/
theorem tree_render_ne_of_line_in_string :
    ∃ e₁ e₂ t₁ t₂, parse "(tuple \"a\n  1: this\")" = .ok [e₁] ∧
      parse "(tuple \"a\" (this))" = .ok [e₂] ∧ e₁.tree = .ok t₁ ∧ e₂.tree = .ok t₂ ∧
      t₁.render ≠ t₂.render := by
  let e₁ := tuple [literal (.str "a\n  1: this") ⟨7, 20⟩] ⟨0, 21⟩
  let e₂ := tuple [literal (.str "a") ⟨7, 10⟩, this ⟨11, 17⟩] ⟨0, 18⟩
  have hread₁ : read "(tuple \"a\n  1: this\")" = .ok
      [.list [.symbol "tuple" ⟨1, 6⟩, .literal (.str "a\n  1: this") ⟨7, 20⟩] ⟨0, 21⟩] := by
    decide +kernel
  have hread₂ : read "(tuple \"a\" (this))" = .ok [.list [.symbol "tuple" ⟨1, 6⟩,
      .literal (.str "a") ⟨7, 10⟩, .list [.symbol "this" ⟨12, 16⟩] ⟨11, 17⟩] ⟨0, 18⟩] := by
    decide +kernel
  have h₁ : parse "(tuple \"a\n  1: this\")" = .ok [e₁] := parse_of_read hread₁ rfl
  have h₂ : parse "(tuple \"a\" (this))" = .ok [e₂] := parse_of_read hread₂ rfl
  have he₁ : e₁ ∈ subtermsAll [e₁] := by simp [subtermsAll, mem_subterms_self]
  have he₂ : e₂ ∈ subtermsAll [e₂] := by simp [subtermsAll, mem_subterms_self]
  have inner : ∀ {n : Node}, n.value = none → (∀ m ∈ n.parts, m.NoFloats) → n.NoFloats := by
    intro n hvalue hparts
    refine .intro (fun x hx => ?_) hparts
    cases hvalue.symm.trans hx
  have string : ∀ s : String, (literalNode (.str s)).NoFloats := by
    intro s
    refine inner rfl (List.forall_mem_singleton.mpr (.intro (fun x hx => ?_) (List.forall_mem_nil _)))
    cases hx
  have hf₁ : e₁.node.NoFloats := inner rfl (List.forall_mem_singleton.mpr (string _))
  have hf₂ : e₂.node.NoFloats := inner rfl (List.forall_mem_cons.mpr ⟨string _,
    List.forall_mem_singleton.mpr (inner rfl (List.forall_mem_nil _))⟩)
  have ht₁ : e₁.tree = .ok e₁.node := rfl
  have ht₂ : e₂.tree = .ok e₂.node := rfl
  refine ⟨e₁, e₂, e₁.node, e₂.node, h₁, h₂, ht₁, ht₂, ?_⟩
  have htrees : e₁.node ≠ e₂.node := by decide
  exact (tree_render_eq_iff h₁ h₂ he₁ he₂ ht₁ ht₂ hf₁ hf₂).not.mpr htrees

end Expr

end TraceFront
