import TraceFront.Proofs.Expr.Subterms

/-!
# Expressions with a hole

A frame is an expression with a hole in place of one of its children.  Frames one inside the other,
the outermost first, are a context: an expression with a hole at any depth.

* `Frame.fill`, `Context.fill`   the expression with the hole filled;
* `Frame.before`, `Frame.after`  the other children;
* `Frame.exists_fill`            every child stands in the hole of a frame;
* `Context.mem_subterms_iff`     the occurrences of subterms are the holes of contexts.

What an expression has apart from the child in the hole does not depend on that child
(`children_fill`, `ownIdentifiers_fill`), so that a fact about an expression can be moved to the
expression with another child in the same place.
-/

namespace TraceFront

/-- an expression with a hole in place of one child -/
inductive Frame where
  /-- a statement of a function -/
  | statement (pattern : Pattern String) (before after : List (Expr String)) (span : Span)
  | soleCondition (consequent : Expr String) (span : Span)
  | soleBranch (predicate : Expr String) (span : Span)
  | condition (consequent alternative : Expr String) (span : Span)
  | consequent (predicate alternative : Expr String) (span : Span)
  | alternative (predicate consequent : Expr String) (span : Span)
  | inBlock (before after : List (Expr String)) (span : Span)
  /-- the value of a definition -/
  | value (pattern : Pattern String) (span : Span)
  | tag (inner : Expr String) (span : Span)
  | tagged (tag : Expr String) (span : Span)
  | inTuple (before after : List (Expr String)) (span : Span)
  | operator (operands : List (Expr String)) (span : Span)
  | operand (operator : Expr String) (before after : List (Expr String)) (span : Span)
  | spliced (span : Span)
  | unquoted (span : Span)

namespace Frame

/-- the expression with `e` in the hole -/
def fill (e : Expr String) : Frame → Expr String
  | statement p es fs s => .program p (es ++ e :: fs) s
  | soleCondition t s => .ifThen e t s
  | soleBranch p s => .ifThen p e s
  | condition t f s => .ifThenElse e t f s
  | consequent p f s => .ifThenElse p e f s
  | alternative p t s => .ifThenElse p t e s
  | inBlock es fs s => .block (es ++ e :: fs) s
  | value p s => .define p e s
  | tag f s => .withAddress e f s
  | tagged t s => .withAddress t e s
  | inTuple es fs s => .tuple (es ++ e :: fs) s
  | operator args s => .apply e args s
  | operand f es fs s => .apply f (es ++ e :: fs) s
  | spliced s => .splice e s
  | unquoted s => .unquote e s

/-- the children to the left of the hole -/
def before : Frame → List (Expr String)
  | statement _ es _ _ => es
  | soleCondition _ _ => []
  | soleBranch p _ => [p]
  | condition _ _ _ => []
  | consequent p _ _ => [p]
  | alternative p t _ => [p, t]
  | inBlock es _ _ => es
  | value _ _ => []
  | tag _ _ => []
  | tagged t _ => [t]
  | inTuple es _ _ => es
  | operator _ _ => []
  | operand f es _ _ => f :: es
  | spliced _ => []
  | unquoted _ => []

/-- the children to the right of the hole -/
def after : Frame → List (Expr String)
  | statement _ _ fs _ => fs
  | soleCondition t _ => [t]
  | soleBranch _ _ => []
  | condition t f _ => [t, f]
  | consequent _ f _ => [f]
  | alternative _ _ _ => []
  | inBlock _ fs _ => fs
  | value _ _ => []
  | tag f _ => [f]
  | tagged _ _ => []
  | inTuple _ fs _ => fs
  | operator args _ => args
  | operand _ _ fs _ => fs
  | spliced _ => []
  | unquoted _ => []

theorem children_fill (k : Frame) (e : Expr String) :
    (k.fill e).children = k.before ++ e :: k.after := by
  cases k <;> rfl

theorem mem_children_fill (k : Frame) (e : Expr String) : e ∈ (k.fill e).children := by
  rw [children_fill]
  exact List.mem_append_cons_self

theorem ownIdentifiers_fill (k : Frame) (e e' : Expr String) :
    (k.fill e').ownIdentifiers = (k.fill e).ownIdentifiers := by
  cases k <;> rfl

/-- what all children have, they have with another one in the hole that has it -/
theorem forall_children_fill {P : Expr String → Prop} {k : Frame} {e e' : Expr String}
    (h : ∀ c ∈ (k.fill e).children, P c) (he' : P e') : ∀ c ∈ (k.fill e').children, P c := by
  rw [children_fill] at h ⊢
  obtain ⟨hbefore, hrest⟩ := List.forall_mem_append.mp h
  obtain ⟨_, hafter⟩ := List.forall_mem_cons.mp hrest
  exact List.forall_mem_append.mpr ⟨hbefore, List.forall_mem_cons.mpr ⟨he', hafter⟩⟩

theorem forall_identifiers_fill {P : String → Prop} {k : Frame} {e e' : Expr String}
    (h : ∀ n ∈ (k.fill e).identifiers, P n) (he' : ∀ n ∈ e'.identifiers, P n) :
    ∀ n ∈ (k.fill e').identifiers, P n := by
  rw [Expr.identifiers_eq] at h ⊢
  obtain ⟨hown, hchildren⟩ := List.forall_mem_append.mp h
  refine List.forall_mem_append.mpr ⟨ownIdentifiers_fill k e e' ▸ hown, ?_⟩
  have hall : ∀ c ∈ (k.fill e').children, ∀ n ∈ c.identifiers, P n :=
    forall_children_fill
      (fun c hc n hn => hchildren n (Expr.mem_identifiersAll.mpr ⟨c, hc, hn⟩)) he'
  intro n hn
  obtain ⟨c, hc, hnc⟩ := Expr.mem_identifiersAll.mp hn
  exact hall c hc n hnc

theorem exists_fill {c e : Expr String} (h : c ∈ e.children) : ∃ k : Frame, k.fill c = e := by
  cases e with
  | program p body s =>
    obtain ⟨es, fs, rfl⟩ := List.append_of_mem h
    exact ⟨statement p es fs s, rfl⟩
  | ifThen p t s =>
    rcases List.mem_cons.mp h with rfl | h
    · exact ⟨soleCondition t s, rfl⟩
    · obtain rfl := List.mem_singleton.mp h
      exact ⟨soleBranch p s, rfl⟩
  | ifThenElse p t f s =>
    rcases List.mem_cons.mp h with rfl | h
    · exact ⟨condition t f s, rfl⟩
    rcases List.mem_cons.mp h with rfl | h
    · exact ⟨consequent p f s, rfl⟩
    · obtain rfl := List.mem_singleton.mp h
      exact ⟨alternative p t s, rfl⟩
  | block stmts s =>
    obtain ⟨es, fs, rfl⟩ := List.append_of_mem h
    exact ⟨inBlock es fs s, rfl⟩
  | define p v s =>
    obtain rfl := List.mem_singleton.mp h
    exact ⟨value p s, rfl⟩
  | withAddress t f s =>
    rcases List.mem_cons.mp h with rfl | h
    · exact ⟨tag f s, rfl⟩
    · obtain rfl := List.mem_singleton.mp h
      exact ⟨tagged t s, rfl⟩
  | tuple es s =>
    obtain ⟨es, fs, rfl⟩ := List.append_of_mem h
    exact ⟨inTuple es fs s, rfl⟩
  | apply f args s =>
    rcases List.mem_cons.mp h with rfl | h
    · exact ⟨operator args s, rfl⟩
    · obtain ⟨es, fs, rfl⟩ := List.append_of_mem h
      exact ⟨operand f es fs s, rfl⟩
  | literal l s => cases h
  | var n s => cases h
  | this s => cases h
  | splice f s =>
    obtain rfl := List.mem_singleton.mp h
    exact ⟨spliced s, rfl⟩
  | unquote f s =>
    obtain rfl := List.mem_singleton.mp h
    exact ⟨unquoted s, rfl⟩

end Frame

/-! ## contexts -/

/-- frames one inside the other, the outermost first -/
abbrev Context := List Frame

namespace Context

/-- the expression with `e` in the hole of the innermost frame -/
def fill (e : Expr String) : Context → Expr String
  | [] => e
  | k :: ks => k.fill (fill e ks)

theorem mem_subterms_fill (ks : Context) (e : Expr String) : e ∈ (ks.fill e).subterms := by
  induction ks with
  | nil => exact Expr.mem_subterms_self e
  | cons k ks ih => exact Expr.mem_subterms.mpr (.inr ⟨_, k.mem_children_fill _, ih⟩)

theorem mem_subterms_iff {e f : Expr String} : e ∈ f.subterms ↔ ∃ ks : Context, ks.fill e = f := by
  constructor
  · intro h
    induction f using Expr.childInduction with
    | step f ih =>
      rcases Expr.mem_subterms.mp h with rfl | ⟨c, hc, hec⟩
      · exact ⟨[], rfl⟩
      · obtain ⟨ks, rfl⟩ := ih c hc hec
        obtain ⟨k, hk⟩ := Frame.exists_fill hc
        exact ⟨k :: ks, hk⟩
  · rintro ⟨ks, rfl⟩
    exact mem_subterms_fill ks e

theorem forall_identifiers_fill {P : String → Prop} {e e' : Expr String}
    (he' : ∀ n ∈ e'.identifiers, P n) (ks : Context) (h : ∀ n ∈ (ks.fill e).identifiers, P n) :
    ∀ n ∈ (ks.fill e').identifiers, P n := by
  induction ks with
  | nil => exact he'
  | cons k ks ih =>
    have hinner : ∀ n ∈ (fill e ks).identifiers, P n := fun n hn =>
      h n (Expr.identifiers_of_mem_children (k.mem_children_fill _) hn)
    exact Frame.forall_identifiers_fill h (ih hinner)

end Context

end TraceFront
