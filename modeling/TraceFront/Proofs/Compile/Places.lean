import TraceFront.Compile.Form
import TraceFront.Proofs.Core.Runs
import TraceFront.Proofs.Source.Shifting

/-!
# The places of compiled forms

Compilation looks at no place.  Trees and core terms have none, and what does have one, an error or
a warning, takes it from the expression that it is about.

* `Expr.core_relocate`        expressions that differ in their places have the same core term,
* `Expr.treeWith_relocate`    and the same tree, or the same error at the place of the other one;
* `Form.relocate`             a compiled form with the places of its warnings replaced;
* `Form.ofExprs_relocate`     the forms of expressions at other places.
-/

namespace TraceFront

namespace Expr

theorem relocateAll_eq_map (σ : Span → Span) (es : List (Expr String)) :
    relocateAll σ es = es.map (relocate σ) := by
  induction es with
  | nil => rfl
  | cons e es ih => rw [relocateAll, ih, List.map_cons]

theorem span_relocate (σ : Span → Span) (e : Expr String) : (e.relocate σ).span = σ e.span := by
  cases e <;> rfl

theorem isProgram_relocate (σ : Span → Span) (e : Expr String) :
    (e.relocate σ).isProgram = e.isProgram := by
  cases e <;> rfl

theorem isDefinition_relocate (σ : Span → Span) (e : Expr String) :
    (e.relocate σ).isDefinition = e.isDefinition := by
  cases e <;> rfl

mutual

/-- the text of an expression does not tell where it stands -/
theorem render_relocate (σ : Span → Span) : ∀ e : Expr String, (e.relocate σ).render = e.render
  | program p body s => by rw [relocate, render, render, renderAll_relocate σ body]
  | ifThen p t s => by rw [relocate, render, render, render_relocate σ p, render_relocate σ t]
  | ifThenElse p t e s => by
    rw [relocate, render, render, render_relocate σ p, render_relocate σ t, render_relocate σ e]
  | block stmts s => by rw [relocate, render, render, renderAll_relocate σ stmts]
  | define p v s => by rw [relocate, render, render, render_relocate σ v]
  | withAddress t e s => by rw [relocate, render, render, render_relocate σ t, render_relocate σ e]
  | tuple es s => by rw [relocate, render, render, renderAll_relocate σ es]
  | apply f args s => by
    rw [relocate, render, render, render_relocate σ f, renderAll_relocate σ args]
  | literal l s => rfl
  | var n s => rfl
  | this s => rfl
  | splice e s => by rw [relocate, render, render, render_relocate σ e]
  | unquote e s => by rw [relocate, render, render, render_relocate σ e]

theorem renderAll_relocate (σ : Span → Span) :
    ∀ es : List (Expr String), renderAll (relocateAll σ es) = renderAll es
  | [] => rfl
  | e :: es => by
    rw [relocateAll, renderAll, renderAll, render_relocate σ e, renderAll_relocate σ es]

end

/-! ## core terms -/

theorem coreAll_relocate {σ : Span → Span} {es : List (Expr String)}
    (h : ∀ e ∈ es, (e.relocate σ).core = e.core) : coreAll (relocateAll σ es) = coreAll es := by
  rw [coreAll_eq_map, coreAll_eq_map, relocateAll_eq_map, List.map_map]
  exact List.map_congr_left h

/-- a definition is taken apart by the scan, so its value counts and not its own core term -/
theorem following_relocate {σ : Span → Span} {stmts : List (Expr String)}
    (h : ∀ e ∈ stmts, ∀ c ∈ e :: e.children, (c.relocate σ).core = c.core) :
    following (relocateAll σ stmts) = following stmts := by
  induction stmts with
  | nil => rfl
  | cons e stmts ih =>
    obtain ⟨he, hstmts⟩ := List.forall_mem_cons.mp h
    rw [relocateAll]
    cases hdef : e.isDefinition with
    | false =>
      have hdef' : (e.relocate σ).isDefinition = false := (e.isDefinition_relocate σ).trans hdef
      rw [following_expression hdef, following_expression hdef', ih hstmts, he e List.mem_cons_self]
    | true =>
      cases e with
      | define p v s =>
        have hv : (v.relocate σ).core = v.core :=
          he v (List.mem_cons_of_mem _ List.mem_cons_self)
        rw [relocate, following, following, ih hstmts, hv, isProgram_relocate]
      | _ => cases hdef

theorem core_relocate (σ : Span → Span) (e : Expr String) : (e.relocate σ).core = e.core := by
  -- the scan of statements also looks at the values of definitions, two levels down
  suffices h : ∀ c ∈ e :: e.children, (c.relocate σ).core = c.core from h e List.mem_cons_self
  induction e using childInduction with
  | step e ih =>
    have hchild : ∀ c ∈ e.children, (c.relocate σ).core = c.core :=
      fun c hc => ih c hc c List.mem_cons_self
    refine List.forall_mem_cons.mpr ⟨?_, hchild⟩
    cases e with
    | program p body s =>
      have hbody : following (relocateAll σ body) = following body := following_relocate ih
      rw [relocate, core, core, hbody]
    | ifThen p t s =>
      obtain ⟨hp, ht⟩ := List.forall_mem_cons.mp hchild
      rw [relocate, core, core, hp, ht t List.mem_cons_self]
    | ifThenElse p t e s =>
      obtain ⟨hp, hte⟩ := List.forall_mem_cons.mp hchild
      obtain ⟨ht, he⟩ := List.forall_mem_cons.mp hte
      rw [relocate, core, core, hp, ht, he e List.mem_cons_self]
    | block stmts s =>
      have hstmts : following (relocateAll σ stmts) = following stmts := following_relocate ih
      rw [relocate, core, core, hstmts]
    | define p v s =>
      rw [relocate, core, core, isProgram_relocate, hchild v List.mem_cons_self]
    | withAddress t e s =>
      obtain ⟨ht, he⟩ := List.forall_mem_cons.mp hchild
      rw [relocate, core, core, ht, he e List.mem_cons_self]
    | tuple es s =>
      have hes : coreAll (relocateAll σ es) = coreAll es := coreAll_relocate hchild
      rw [relocate, core, core, hes]
    | apply f args s =>
      obtain ⟨hf, hargs⟩ := List.forall_mem_cons.mp hchild
      rw [relocate, core, core, hf, coreAll_relocate hargs]
    | literal l s => rfl
    | var n s => rfl
    | this s => rfl
    | splice e s => rw [relocate, core, core, hchild e List.mem_cons_self]
    | unquote e s => rw [relocate, core, core, hchild e List.mem_cons_self]

end Expr

/-! ## warnings -/

def Label.relocate (σ : Span → Span) (l : Label) : Label := { l with span := σ l.span }

/-- the diagnostic with its places replaced -/
def Diagnostic.relocate (σ : Span → Span) (d : Diagnostic) : Diagnostic :=
  { d with labels := d.labels.map (Label.relocate σ) }

def TrailingDefinition.relocate (σ : Span → Span) (d : TrailingDefinition) : TrailingDefinition :=
  { d with span := σ d.span }

namespace Expr

theorem asTrailing_relocate (σ : Span → Span) (e : Expr String) :
    (e.relocate σ).asTrailing = e.asTrailing.map (TrailingDefinition.relocate σ) := by
  cases e <;> rfl

mutual

theorem trailingDefinitions_relocate (σ : Span → Span) : ∀ e : Expr String,
    (e.relocate σ).trailingDefinitions = e.trailingDefinitions.map (TrailingDefinition.relocate σ)
  | program p body s => trailingInBlock_relocate σ body
  | ifThen p t s => by
    rw [relocate, trailingDefinitions, trailingDefinitions, List.map_append,
      trailingDefinitions_relocate σ p, trailingDefinitions_relocate σ t]
  | ifThenElse p t e s => by
    rw [relocate, trailingDefinitions, trailingDefinitions, List.map_append, List.map_append,
      trailingDefinitions_relocate σ p, trailingDefinitions_relocate σ t,
      trailingDefinitions_relocate σ e]
  | block stmts s => trailingInBlock_relocate σ stmts
  | define p v s => trailingDefinitions_relocate σ v
  | withAddress t e s => by
    rw [relocate, trailingDefinitions, trailingDefinitions, List.map_append,
      trailingDefinitions_relocate σ t, trailingDefinitions_relocate σ e]
  | tuple es s => trailingInAll_relocate σ es
  | apply f args s => by
    rw [relocate, trailingDefinitions, trailingDefinitions, List.map_append,
      trailingDefinitions_relocate σ f, trailingInAll_relocate σ args]
  | literal l s => rfl
  | var n s => rfl
  | this s => rfl
  | splice e s => trailingDefinitions_relocate σ e
  | unquote e s => trailingDefinitions_relocate σ e

theorem trailingInAll_relocate (σ : Span → Span) : ∀ es : List (Expr String),
    trailingInAll (relocateAll σ es) = (trailingInAll es).map (TrailingDefinition.relocate σ)
  | [] => rfl
  | e :: es => by
    rw [relocateAll, trailingInAll, trailingInAll, List.map_append,
      trailingDefinitions_relocate σ e, trailingInAll_relocate σ es]

theorem trailingInBlock_relocate (σ : Span → Span) : ∀ es : List (Expr String),
    trailingInBlock (relocateAll σ es) = (trailingInBlock es).map (TrailingDefinition.relocate σ)
  | [] => rfl
  | [e] => by
    rw [relocateAll, relocateAll, trailingInBlock, trailingInBlock, List.map_append,
      asTrailing_relocate, trailingDefinitions_relocate σ e]
  | e :: e' :: es => by
    have hrest := trailingInBlock_relocate σ (e' :: es)
    rw [relocateAll] at hrest
    rw [relocateAll, relocateAll, trailingInBlock, trailingInBlock, List.map_append, hrest,
      trailingDefinitions_relocate σ e]

end

theorem warnings_relocate (σ : Span → Span) (e : Expr String) :
    (e.relocate σ).warnings = e.warnings.map (Diagnostic.relocate σ) := by
  rw [warnings, warnings, trailingDefinitions_relocate, List.map_map, List.map_map]
  rfl

end Expr

/-! ## trees -/

def TreeError.relocate (σ : Span → Span) : TreeError → TreeError
  | fieldCollision n s => fieldCollision n (σ s)
  | rejectedNode tag term dump s => rejectedNode tag term dump (σ s)

section
variable (σ : Span → Span) (accepts : Node → Bool) (owner : Expr String)

theorem checked_relocate (n : Node) : checked accepts (owner.relocate σ) n =
    carried (TreeError.relocate σ) id (checked accepts owner n) := by
  unfold checked
  split
  · rfl
  · rw [Expr.render_relocate, Expr.span_relocate]
    rfl

theorem literalTree_relocate (l : Literal String) : literalTree accepts (owner.relocate σ) l =
    carried (TreeError.relocate σ) id (literalTree accepts owner l) :=
  carried_bind (checked_relocate σ accepts owner _) fun _ => checked_relocate σ accepts owner _

theorem nameTree_relocate (name : String) : nameTree accepts (owner.relocate σ) name =
    carried (TreeError.relocate σ) id (nameTree accepts owner name) :=
  carried_bind (checked_relocate σ accepts owner _) fun _ => checked_relocate σ accepts owner _

theorem bodyTree_relocate (ns : List Node) : bodyTree accepts (owner.relocate σ) ns =
    carried (TreeError.relocate σ) id (bodyTree accepts owner ns) := by
  unfold bodyTree
  split
  · rfl
  · exact checked_relocate σ accepts owner _

theorem definitionTree_relocate (p : Pattern String) (pattern value : Node) :
    definitionTree accepts (owner.relocate σ) p pattern value =
      carried (TreeError.relocate σ) id (definitionTree accepts owner p pattern value) := by
  unfold definitionTree
  split
  · rw [Expr.span_relocate]
    rfl
  · exact checked_relocate σ accepts owner _

mutual

theorem Pattern.treeWith_relocate : ∀ p : Pattern String, p.treeWith accepts (owner.relocate σ) =
    carried (TreeError.relocate σ) id (p.treeWith accepts owner)
  | .name n => nameTree_relocate σ accepts owner n
  | .wildcard => nameTree_relocate σ accepts owner Vocabulary.wildcard
  | .tuple ps => by
    rw [Pattern.treeWith, Pattern.treeWith]
    refine carried_bind (Pattern.treesWith_relocate ps) fun nodes => ?_
    show (if accepts (NodeType.tuple.sequence nodes) then _ else _) =
      carried _ _ (if accepts (NodeType.tuple.sequence nodes) then _ else _)
    split
    · rfl
    · rw [Expr.span_relocate]
      rfl

theorem Pattern.treesWith_relocate : ∀ ps : List (Pattern String),
    Pattern.treesWith accepts (owner.relocate σ) ps =
      carried (TreeError.relocate σ) id (Pattern.treesWith accepts owner ps)
  | [] => rfl
  | p :: ps => by
    rw [Pattern.treesWith, Pattern.treesWith]
    exact carried_bind (Pattern.treeWith_relocate p) fun _ =>
      carried_bind (Pattern.treesWith_relocate ps) fun _ => rfl

end

end

namespace Expr

mutual

/-- the same nodes are built and tested, and the first one that fails is reported elsewhere -/
theorem treeWith_relocate (σ : Span → Span) (accepts : Node → Bool) : ∀ e : Expr String,
    (e.relocate σ).treeWith accepts = carried (TreeError.relocate σ) id (e.treeWith accepts)
  | program p body s => by
    rw [relocate, treeWith, treeWith]
    exact carried_bind (p.treeWith_relocate σ accepts (program p body s)) fun _ =>
      carried_bind (treesWith_relocate σ accepts body) fun _ =>
      carried_bind (bodyTree_relocate σ accepts (program p body s) _) fun _ =>
      checked_relocate σ accepts (program p body s) _
  | ifThen p t s => by
    rw [relocate, treeWith, treeWith]
    exact carried_bind (literalTree_relocate σ accepts (ifThen p t s) _) fun _ =>
      carried_bind (treeWith_relocate σ accepts p) fun _ =>
      carried_bind (treeWith_relocate σ accepts t) fun _ =>
      checked_relocate σ accepts (ifThen p t s) _
  | ifThenElse p t e s => by
    rw [relocate, treeWith, treeWith]
    exact carried_bind (treeWith_relocate σ accepts e) fun _ =>
      carried_bind (treeWith_relocate σ accepts p) fun _ =>
      carried_bind (treeWith_relocate σ accepts t) fun _ =>
      checked_relocate σ accepts (ifThenElse p t e s) _
  | block stmts s => by
    rw [relocate, treeWith, treeWith]
    exact carried_bind (treesWith_relocate σ accepts stmts) fun _ =>
      checked_relocate σ accepts (block stmts s) _
  | define p v s => by
    rw [relocate, treeWith, treeWith]
    exact carried_bind (p.treeWith_relocate σ accepts (define p v s)) fun _ =>
      carried_bind (treeWith_relocate σ accepts v) fun _ =>
      definitionTree_relocate σ accepts (define p v s) p _ _
  | withAddress t e s => by
    rw [relocate, treeWith, treeWith]
    exact carried_bind (treeWith_relocate σ accepts t) fun _ =>
      carried_bind (treeWith_relocate σ accepts e) fun _ =>
      checked_relocate σ accepts (withAddress t e s) _
  | tuple es s => by
    rw [relocate, treeWith, treeWith]
    exact carried_bind (treesWith_relocate σ accepts es) fun _ =>
      checked_relocate σ accepts (tuple es s) _
  | apply f args s => by
    rw [relocate, treeWith, treeWith]
    exact carried_bind (treeWith_relocate σ accepts f) fun _ =>
      carried_bind (treesWith_relocate σ accepts args) fun _ =>
      checked_relocate σ accepts (apply f args s) _
  | literal l s => literalTree_relocate σ accepts (literal l s) l
  | var n s => nameTree_relocate σ accepts (var n s) n
  | this s => checked_relocate σ accepts (this s) _
  | splice e s => by
    rw [relocate, treeWith, treeWith]
    exact carried_bind (treeWith_relocate σ accepts e) fun _ =>
      checked_relocate σ accepts (splice e s) _
  | unquote e s => by
    rw [relocate, treeWith, treeWith]
    exact carried_bind (treeWith_relocate σ accepts e) fun _ =>
      checked_relocate σ accepts (unquote e s) _

theorem treesWith_relocate (σ : Span → Span) (accepts : Node → Bool) : ∀ es : List (Expr String),
    treesWith accepts (relocateAll σ es) =
      carried (TreeError.relocate σ) id (treesWith accepts es)
  | [] => rfl
  | e :: es => by
    rw [relocateAll, treesWith, treesWith]
    exact carried_bind (treeWith_relocate σ accepts e) fun _ =>
      carried_bind (treesWith_relocate σ accepts es) fun _ => rfl

end

end Expr

/-! ## forms -/

section
variable [ContentHash]

theorem Procedure.ofExpr?_relocate (σ : Span → Span) (ns : Namespace) (e : Expr String)
    (tree : Node) : Procedure.ofExpr? ns (e.relocate σ) tree = Procedure.ofExpr? ns e tree := by
  cases e with
  | define p v s =>
    cases p with
    | name n =>
      rw [Expr.relocate, ofExpr?, ofExpr?, Expr.functionIn?, Expr.functionIn?,
        Expr.isProgram_relocate]
    | _ => rfl
  | _ => rfl

namespace Form

/-- the form with the places of its warnings replaced -/
def relocate {ν κ : Type} (σ : Span → Span) (f : Form ν κ) : Form ν κ :=
  { f with warnings := f.warnings.map (Diagnostic.relocate σ) }

theorem ofExpr_relocate (σ : Span → Span) (o : Options) (e : Expr String) :
    ofExpr o (e.relocate σ) = carried (TreeError.relocate σ) (relocate σ) (ofExpr o e) := by
  unfold ofExpr
  rw [Expr.treeWith_relocate]
  cases e.treeWith o.test with
  | error err => rfl
  | ok tree =>
    have hwarnings : (if o.keepWarnings then (e.relocate σ).warnings else []) =
        (if o.keepWarnings then e.warnings else []).map (Diagnostic.relocate σ) := by
      rw [Expr.warnings_relocate]
      split
      · rfl
      · rfl
    show Except.ok (Form.mk tree (e.relocate σ).core
      (Procedure.ofExpr? o.ns (e.relocate σ) tree) _) = _
    rw [Expr.core_relocate, Procedure.ofExpr?_relocate, hwarnings]
    rfl

/-- the forms of expressions at other places, up to the same one that fails -/
theorem ofExprs_relocate (σ : Span → Span) (o : Options) (es : List (Expr String)) :
    ofExprs o (Expr.relocateAll σ es) =
      ((ofExprs o es).1.map (relocate σ), (ofExprs o es).2.map (TreeError.relocate σ)) := by
  induction es with
  | nil => rfl
  | cons e es ih =>
    rw [Expr.relocateAll, ofExprs, ofExprs, ofExpr_relocate]
    cases ofExpr o e with
    | error err => rfl
    | ok f =>
      show (f.relocate σ :: (ofExprs o (Expr.relocateAll σ es)).1,
        (ofExprs o (Expr.relocateAll σ es)).2) = _
      rw [ih]
      rfl

end Form

end

end TraceFront
