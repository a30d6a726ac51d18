import TraceFront.Proofs.Core.Runs
import TraceFront.Proofs.Tree.Decoding
import TraceFront.Proofs.Tree.Encoding

/-!
# The tree determines the core term

An expression goes to its tree and to its core term by two recursions that do not know of each
other.  Expressions with the same tree are alike, and alike expressions have the same core term,
once the value of an empty block is the literal `nil`, and raise the same warnings.

* `Core.oneNil`           the term with one spelling of `nil`;
* `Contribution`          what a statement hands to the sequence it stands in;
* `contribution_fill`     an expression contributes the same with a child that does so in its place;
* `Alike.contribution_eq` alike expressions contribute the same;
* `Expr.Agree`            the same core term and the same warnings;
* `body_of_procedure`     the body of a procedure is the tree of its function literal.

The scan over a statement sequence treats definitions apart, so that the core term of a statement
alone does not say what it does to the sequence.  Its contribution does, and the scan goes through
`Core.oneNil` as it is (`oneNil_following`).
-/

namespace TraceFront

/-! ## one spelling of nil -/

namespace Core

variable {ν : Type}

mutual

/-- the term with `nil` spelled as the literal everywhere -/
def oneNil : Core ν → Core ν
  | nil => literal .nil
  | literal l => literal l
  | var n => var n
  | this => this
  | lambda p b => lambda p b.oneNil
  | conditional p t e => conditional p.oneNil t.oneNil e.oneNil
  | bind n v b => bind n v.oneNil b.oneNil
  | bindGroup bs b => bindGroup (oneNilBindings bs) b.oneNil
  | sequence cs => sequence (oneNilAll cs)
  | apply f cs => apply f.oneNil (oneNilAll cs)
  | tuple cs => tuple (oneNilAll cs)
  | project c i => project c.oneNil i
  | withAddress t c => withAddress t.oneNil c.oneNil
  | splice c => splice c.oneNil
  | unquote c => unquote c.oneNil

def oneNilAll : List (Core ν) → List (Core ν)
  | [] => []
  | c :: cs => c.oneNil :: oneNilAll cs

def oneNilBindings : List (ν × Core ν) → List (ν × Core ν)
  | [] => []
  | (n, c) :: bs => (n, c.oneNil) :: oneNilBindings bs

end

theorem oneNilAll_eq_map (cs : List (Core ν)) : oneNilAll cs = cs.map oneNil := by
  induction cs with
  | nil => rfl
  | cons c cs ih => rw [oneNilAll, ih, List.map_cons]

theorem oneNilBindings_append (bs cs : List (ν × Core ν)) :
    oneNilBindings (bs ++ cs) = oneNilBindings bs ++ oneNilBindings cs := by
  induction bs with
  | nil => rfl
  | cons b bs ih => rw [List.cons_append, oneNilBindings, ih, oneNilBindings, List.cons_append]

theorem oneNil_bindAll (bs : List (ν × Core ν)) (body : Core ν) :
    (bindAll bs body).oneNil = bindAll (oneNilBindings bs) body.oneNil := by
  induction bs with
  | nil => rfl
  | cons b bs ih => rw [bindAll_cons, oneNil, ih, oneNilBindings, bindAll_cons]

end Core

namespace Pattern

mutual

theorem oneNil_partBindings (c : Core String) :
    ∀ p : Pattern String, Core.oneNilBindings (p.partBindings c) = p.partBindings c.oneNil
  | name n => rfl
  | wildcard => rfl
  | tuple ps => by
    rw [partBindings, Core.oneNilBindings, oneNil_itemBindings _ 0 ps, partBindings]

theorem oneNil_itemBindings (whole : String) (i : Nat) :
    ∀ ps : List (Pattern String), Core.oneNilBindings (itemBindings whole i ps) = itemBindings whole i ps
  | [] => rfl
  | p :: ps => by
    rw [itemBindings, Core.oneNilBindings_append, oneNil_partBindings _ p,
      oneNil_itemBindings _ _ ps]
    rfl

end

theorem oneNil_bindings (p : Pattern String) (c : Core String) :
    Core.oneNilBindings (p.bindings c) = p.bindings c.oneNil := by
  cases p with
  | name n => rfl
  | wildcard => rfl
  | tuple ps => exact oneNil_partBindings c (.tuple ps)

theorem oneNil_projections (p : Pattern String) :
    Core.oneNilBindings p.projections = p.projections := by
  cases p with
  | name n => rfl
  | wildcard => rfl
  | tuple ps => exact oneNil_itemBindings _ 0 ps

end Pattern

/-! ## the scan -/

theorem oneNil_defineFunction (n : String) (f rest : Core String) (join : Bool) :
    (defineFunction n f rest join).oneNil = defineFunction n f.oneNil rest.oneNil join := by
  cases rest with
  | bindGroup bs body => cases join <;> rfl
  | _ => rfl

theorem oneNil_definePattern (p : Pattern String) (isFunction : Bool) (c rest : Core String)
    (join : Bool) : (definePattern p isFunction c rest join).oneNil =
      definePattern p isFunction c.oneNil rest.oneNil join := by
  have hbind : (Core.bindAll (p.bindings c) rest).oneNil =
      Core.bindAll (p.bindings c.oneNil) rest.oneNil := by
    rw [Core.oneNil_bindAll, p.oneNil_bindings]
  cases p with
  | name n =>
    cases isFunction with
    | true => exact oneNil_defineFunction n c rest join
    | false => exact hbind
  | wildcard => exact hbind
  | tuple ps => exact hbind

namespace Following

def oneNil (k : Following String) : Following String :=
  ⟨k.core.map Core.oneNil, k.steps.map Core.oneNil, k.startsGroup⟩

theorem term?_oneNil (k : Following String) : k.oneNil.term? = k.term?.map Core.oneNil := by
  obtain ⟨core, steps, startsGroup⟩ := k
  cases steps with
  | nil => rfl
  | cons c cs =>
    have hlist : cs.map Core.oneNil ++ (core.map Core.oneNil).toList =
        (cs ++ core.toList).map Core.oneNil := by
      cases core <;> simp
    simp only [term?, oneNil, List.map_cons, List.cons_append, hlist]
    -- one term alone is not wrapped, and the number of terms stays the same
    cases cs ++ core.toList with
    | nil => rfl
    | cons d ds =>
      show some (Core.sequence (c.oneNil :: d.oneNil :: ds.map Core.oneNil)) =
        some (Core.sequence (Core.oneNilAll (c :: d :: ds)))
      rw [Core.oneNilAll_eq_map]
      rfl

theorem oneNil_getD_term? (k : Following String) (c : Core String) :
    (k.term?.getD c).oneNil = k.oneNil.term?.getD c.oneNil := by
  rw [term?_oneNil]
  cases k.term? <;> rfl

theorem oneNil_define (k : Following String) (p : Pattern String) (isFunction : Bool)
    (c : Core String) :
    (k.define p isFunction c).oneNil = k.oneNil.define p isFunction c.oneNil := by
  have hjoin : k.oneNil.joinable = k.joinable := by
    show ((k.steps.map Core.oneNil).isEmpty && k.startsGroup) = (k.steps.isEmpty && k.startsGroup)
    rw [List.isEmpty_map]
  have hrest : (k.term?.getD (.var p.wholeName)).oneNil = k.oneNil.term?.getD (.var p.wholeName) :=
    k.oneNil_getD_term? _
  simp only [define, hjoin, ← hrest, ← oneNil_definePattern]
  rfl

end Following

/-! ## what a statement contributes -/

/-- what a statement hands to the sequence it stands in, with one spelling of `nil` -/
structure Contribution where
  /-- the pattern of a definition -/
  pattern : Option (Pattern String)
  /-- the statement, or the value of the definition, is a function literal -/
  isFunction : Bool
  /-- the term of the statement, or of the value of the definition -/
  term : Core String
  /-- the names of the definitions inside that have nothing after them -/
  warned : List String

namespace Contribution

/-- the contribution in front of what follows -/
def onto (c : Contribution) (k : Following String) : Following String :=
  match c.pattern with
  | some p => k.define p c.isFunction c.term
  | none => k.step c.term

/-- the term of a sequence -/
def block (cs : List Contribution) : Core String :=
  (cs.foldr onto .nothing).term?.getD (.literal .nil)

def warnedInBlock : List Contribution → List String
  | [] => []
  | [c] => c.pattern.toList.map Pattern.wholeName ++ c.warned
  | c :: c' :: cs => warnedInBlock (c' :: cs) ++ c.warned

end Contribution

namespace Expr

def warned (e : Expr String) : List String := e.trailingDefinitions.map (·.name)

/-- what an expression contributes as a statement -/
def contribution : Expr String → Contribution
  | define p v _ => ⟨some p, v.isProgram, v.core.oneNil, v.warned⟩
  | e => ⟨none, e.isProgram, e.core.oneNil, e.warned⟩

theorem contribution_expression {e : Expr String} (h : e.isDefinition = false) :
    e.contribution = ⟨none, e.isProgram, e.core.oneNil, e.warned⟩ := by
  cases e with
  | define p v s => cases h
  | _ => rfl

theorem oneNil_following (stmts : List (Expr String)) :
    (following stmts).oneNil = (stmts.map contribution).foldr Contribution.onto .nothing := by
  induction stmts with
  | nil => rfl
  | cons e stmts ih =>
    rw [List.map_cons, List.foldr_cons, ← ih]
    cases h : e.isDefinition with
    | false =>
      rw [following_expression h, contribution_expression h]
      rfl
    | true =>
      cases e with
      | define p v s => exact (following stmts).oneNil_define p v.isProgram v.core
      | _ => cases h

theorem oneNil_coreBlock (stmts : List (Expr String)) :
    (coreBlock stmts).oneNil = Contribution.block (stmts.map contribution) := by
  rw [coreBlock, Following.oneNil_getD_term?, oneNil_following]
  rfl

theorem core_eq_coreBlock (e : Expr String) : e.core = coreBlock [e] := by
  cases e <;> rfl

theorem oneNil_core (e : Expr String) : e.core.oneNil = Contribution.block [e.contribution] := by
  rw [core_eq_coreBlock, oneNil_coreBlock]
  rfl

theorem warned_eq (e : Expr String) : e.warned = e.contribution.warned := by
  cases e <;> rfl

theorem isProgram_eq (e : Expr String) :
    e.isProgram = (e.contribution.pattern.isNone && e.contribution.isFunction) := by
  cases e <;> rfl

theorem warned_trailingInBlock (stmts : List (Expr String)) :
    (trailingInBlock stmts).map (·.name) = Contribution.warnedInBlock (stmts.map contribution) := by
  induction stmts with
  | nil => rfl
  | cons e stmts ih =>
    cases stmts with
    | nil => cases e <;> rfl
    | cons e' stmts =>
      rw [trailingInBlock, List.map_append, ih]
      show _ ++ e.warned = _
      rw [warned_eq]
      rfl

theorem contribution_program (p : Pattern String) (body : List (Expr String)) (s : Span) :
    (program p body s).contribution =
      ⟨none, true,
        .lambda p.wholeName (Core.bindAll p.projections (Contribution.block (body.map contribution))),
        Contribution.warnedInBlock (body.map contribution)⟩ := by
  rw [← oneNil_coreBlock, ← warned_trailingInBlock, ← p.oneNil_projections, ← Core.oneNil_bindAll]
  rfl

theorem contribution_block (stmts : List (Expr String)) (s : Span) :
    (block stmts s).contribution =
      ⟨none, false, Contribution.block (stmts.map contribution),
        Contribution.warnedInBlock (stmts.map contribution)⟩ := by
  rw [← oneNil_coreBlock, ← warned_trailingInBlock]
  rfl

theorem oneNil_coreAll (es : List (Expr String)) :
    Core.oneNilAll (coreAll es) = es.map fun e => e.core.oneNil := by
  rw [coreAll_eq_map, Core.oneNilAll_eq_map, List.map_map]
  rfl

theorem warned_trailingInAll (es : List (Expr String)) :
    (trailingInAll es).map (·.name) = es.flatMap warned := by
  rw [trailingInAll_eq_flatMap, List.map_flatMap]
  rfl

theorem contribution_fill (k : Frame) {e f : Expr String} (h : e.contribution = f.contribution) :
    (k.fill e).contribution = (k.fill f).contribution := by
  -- all that an expression asks of a child can be read off the contribution of the child
  have hcore : e.core.oneNil = f.core.oneNil := by rw [oneNil_core, oneNil_core, h]
  have hprogram : e.isProgram = f.isProgram := by rw [isProgram_eq, isProgram_eq, h]
  have hwarned : e.warned = f.warned := by rw [warned_eq, warned_eq, h]
  have hcores : ∀ es fs, Core.oneNilAll (coreAll (es ++ e :: fs)) =
      Core.oneNilAll (coreAll (es ++ f :: fs)) := by
    intro es fs
    rw [oneNil_coreAll, oneNil_coreAll, List.map_append, List.map_append, List.map_cons,
      List.map_cons, hcore]
  have hnames : ∀ es fs, (trailingInAll (es ++ e :: fs)).map (·.name) =
      (trailingInAll (es ++ f :: fs)).map (·.name) := by
    intro es fs
    rw [warned_trailingInAll, warned_trailingInAll, List.flatMap_append, List.flatMap_append,
      List.flatMap_cons, List.flatMap_cons, hwarned]
  have hlist : ∀ es fs, (es ++ e :: fs).map contribution = (es ++ f :: fs).map contribution := by
    intro es fs
    rw [List.map_append, List.map_append, List.map_cons, List.map_cons, h]
  cases k with
  | statement p es fs s => rw [Frame.fill, Frame.fill, contribution_program, contribution_program, hlist]
  | inBlock es fs s => rw [Frame.fill, Frame.fill, contribution_block, contribution_block, hlist]
  | value p s =>
    -- the definition hands on its value, and whether that is a function
    show Contribution.mk (some p) e.isProgram e.core.oneNil e.warned = ⟨_, f.isProgram, _, f.warned⟩
    rw [hprogram, hcore, hwarned]
  | _ =>
    simp only [warned] at hwarned
    simp only [Frame.fill, contribution, core, Core.oneNil, isProgram, warned, trailingDefinitions,
      List.map_append, hcore, hwarned, hcores, hnames]

theorem contribution_wrapped (p : Pattern String) (stmts : List (Expr String)) (s s' : Span) :
    (program p [block stmts s'] s).contribution = (program p stmts s).contribution := by
  have hterm : Contribution.block [(block stmts s').contribution] =
      Contribution.block (stmts.map contribution) := by
    rw [← oneNil_core, core_block, oneNil_coreBlock]
  have hwarned : Contribution.warnedInBlock [(block stmts s').contribution] =
      Contribution.warnedInBlock (stmts.map contribution) := by
    rw [contribution_block]
    rfl
  rw [contribution_program, contribution_program, List.map_singleton, hterm, hwarned]

theorem Alike.contribution_eq {e f : Expr String} (h : e.Alike f) :
    e.contribution = f.contribution := by
  induction h with
  | moved e s => cases e <;> rfl
  | missing p t s s' =>
    simp only [contribution, core, Core.oneNil, isProgram, warned, trailingDefinitions,
      List.append_nil]
  | wrapped p s s' _ => exact (contribution_wrapped p _ s s').symm
  | inside k _ ih => exact contribution_fill k ih
  | symm _ ih => exact ih.symm
  | trans _ _ ih ih' => exact ih.trans ih'

/-! ## agreement -/

/-- the same core term, with one spelling of `nil`, and the same warnings -/
structure Agree (e f : Expr String) : Prop where
  core : e.core.oneNil = f.core.oneNil
  warnings : e.warnings.map (·.message) = f.warnings.map (·.message)

theorem messages_eq (e : Expr String) :
    e.warnings.map (·.message) =
      e.warned.map fun n => "definition of `" ++ n ++ "` is the last statement of its block" := by
  rw [warnings, warned, List.map_map, List.map_map]
  rfl

theorem Alike.agree {e f : Expr String} (h : e.Alike f) : e.Agree f := by
  have hc := h.contribution_eq
  constructor
  · rw [oneNil_core, oneNil_core, hc]
  · rw [messages_eq, messages_eq, warned_eq, warned_eq, hc]

/-- the function literal that the procedure of an expression is made from -/
def function? : Expr String → Option (Expr String)
  | program p body s => some (program p body s)
  | e => e.asFunction?.map (·.2)

theorem field?_node_define {n : String} {v : Expr String} {s : Span}
    (hc : (define (.name n) v s).collisions = []) :
    (define (.name n) v s).node.field? n = some v.node := by
  have hslot : Slot (Frame.value (.name n) s).plant [.field n] := Frame.slot hc
  obtain ⟨c, hchild, hfollow⟩ := Node.child?_of_follow_cons (hslot.follow v.node)
  cases hfollow
  exact hchild

theorem body_of_procedure [ContentHash] {ns : Namespace} {e : Expr String}
    {p : Procedure String Namespace}
    (hc : e.collisions = []) (h : Procedure.ofExpr? ns e e.node = some p) :
    ∃ v ∈ e.subterms, e.function? = some v ∧ v.collisions = [] ∧ v.node = p.body := by
  rcases Procedure.ofExpr?_cases h with ⟨q, body, s, rfl, rfl⟩ | ⟨n, v, s, body, rfl, hv, hbody, rfl⟩
  · exact ⟨_, mem_subterms_self _, rfl, hc, rfl⟩
  · have hchild : v ∈ (define (.name n) v s).children := List.mem_singleton_self v
    have hfunction : (define (.name n) v s).function? = some v := by simp [function?, asFunction?, hv]
    have hnode : v.node = body := by
      rw [field?_node_define hc] at hbody
      exact Option.some.inj hbody
    exact ⟨v, mem_subterms.mpr (.inr ⟨v, hchild, mem_subterms_self v⟩), hfunction,
      collisions_of_mem_children hchild hc, hnode⟩

/-- **The tree determines the core term.**  Expressions of accepted sources that have the same tree
have the same core term and raise the same warnings.  So have the function literals of two
procedures whose bodies have the same bytes. -/
theorem agree_of_tree_eq [ContentHash] {source₁ source₂ : String} {es₁ es₂ : List (Expr String)}
    (h₁ : parse source₁ = .ok es₁) (h₂ : parse source₂ = .ok es₂) {e₁ e₂ : Expr String}
    (he₁ : e₁ ∈ subtermsAll es₁) (he₂ : e₂ ∈ subtermsAll es₂) {t₁ t₂ : Node}
    (ht₁ : e₁.tree = .ok t₁) (ht₂ : e₂.tree = .ok t₂) :
    (t₁ = t₂ → e₁.Agree e₂) ∧
    ∀ ns₁ ns₂ p₁ p₂, Procedure.ofExpr? ns₁ e₁ t₁ = some p₁ → Procedure.ofExpr? ns₂ e₂ t₂ = some p₂ →
      p₁.body.All Node.Fits → p₂.body.All Node.Fits → p₁.body.encoding = p₂.body.encoding →
        ∃ v₁ v₂, e₁.function? = some v₁ ∧ e₂.function? = some v₂ ∧
          v₁.tree = .ok p₁.body ∧ v₂.tree = .ok p₂.body ∧ v₁.Agree v₂ := by
  have hid₁ := identifiers_of_mem_parse h₁ he₁
  have hid₂ := identifiers_of_mem_parse h₂ he₂
  obtain ⟨hc₁, rfl⟩ := (tree_eq_ok_iff fun n hn => (hid₁ n hn).ne_empty).mp ht₁
  obtain ⟨hc₂, rfl⟩ := (tree_eq_ok_iff fun n hn => (hid₂ n hn).ne_empty).mp ht₂
  -- what holds of the expressions holds of the function literals in them
  have agree : ∀ v₁ ∈ e₁.subterms, ∀ v₂ ∈ e₂.subterms, v₁.node = v₂.node → v₁.Agree v₂ := by
    intro v₁ hv₁ v₂ hv₂ hnode
    have hw₁ : ∀ n ∈ v₁.identifiers, n ≠ Vocabulary.wildcard := fun n hn =>
      (hid₁ n (identifiers_of_mem_subterms hv₁ hn)).not_wildcard
    have hw₂ : ∀ n ∈ v₂.identifiers, n ≠ Vocabulary.wildcard := fun n hn =>
      (hid₂ n (identifiers_of_mem_subterms hv₂ hn)).not_wildcard
    exact (alike_of_node_eq hw₁ hw₂ hnode).agree
  refine ⟨agree e₁ (mem_subterms_self e₁) e₂ (mem_subterms_self e₂), ?_⟩
  intro ns₁ ns₂ p₁ p₂ hp₁ hp₂ hfits₁ hfits₂ hbytes
  obtain ⟨v₁, hv₁, hf₁, hvc₁, hbody₁⟩ := body_of_procedure hc₁ hp₁
  obtain ⟨v₂, hv₂, hf₂, hvc₂, hbody₂⟩ := body_of_procedure hc₂ hp₂
  have hbody : p₁.body = p₂.body := (Node.encoding_eq_iff hfits₁ hfits₂).mp hbytes
  refine ⟨v₁, v₂, hf₁, hf₂, ?_, ?_, agree v₁ hv₁ v₂ hv₂ ?_⟩
  · exact (tree_eq_ok_iff fun n hn =>
      (hid₁ n (identifiers_of_mem_subterms hv₁ hn)).ne_empty).mpr ⟨hvc₁, hbody₁⟩
  · exact (tree_eq_ok_iff fun n hn =>
      (hid₂ n (identifiers_of_mem_subterms hv₂ hn)).ne_empty).mpr ⟨hvc₂, hbody₂⟩
  · rw [hbody₁, hbody, hbody₂]

/-- functions of two names whose only difference is the alternative `nil` -/
theorem agree_of_functions_with_and_without_alternative :
    ∃ e₁ e₂ v₁ v₂, parse "(define f (program x (if x x)))" = .ok [e₁] ∧
      parse "(define g (program x (if x x nil)))" = .ok [e₂] ∧
      e₁.function? = some v₁ ∧ e₂.function? = some v₂ ∧ v₁.Agree v₂ := by
  let v₁ := program (.name "x")
    [ifThen (var "x" ⟨25, 26⟩) (var "x" ⟨27, 28⟩) ⟨21, 29⟩] ⟨10, 30⟩
  let v₂ := program (.name "x")
    [ifThenElse (var "x" ⟨25, 26⟩) (var "x" ⟨27, 28⟩) (literal .nil ⟨29, 32⟩) ⟨21, 33⟩] ⟨10, 34⟩
  let e₁ := define (.name "f") v₁ ⟨0, 31⟩
  let e₂ := define (.name "g") v₂ ⟨0, 35⟩
  have hread₁ : read "(define f (program x (if x x)))" = .ok [.list [.symbol "define" ⟨1, 7⟩,
      .symbol "f" ⟨8, 9⟩, .list [.symbol "program" ⟨11, 18⟩, .symbol "x" ⟨19, 20⟩,
        .list [.symbol "if" ⟨22, 24⟩, .symbol "x" ⟨25, 26⟩, .symbol "x" ⟨27, 28⟩] ⟨21, 29⟩]
        ⟨10, 30⟩] ⟨0, 31⟩] := by
    decide +kernel
  have hread₂ : read "(define g (program x (if x x nil)))" = .ok [.list [.symbol "define" ⟨1, 7⟩,
      .symbol "g" ⟨8, 9⟩, .list [.symbol "program" ⟨11, 18⟩, .symbol "x" ⟨19, 20⟩,
        .list [.symbol "if" ⟨22, 24⟩, .symbol "x" ⟨25, 26⟩, .symbol "x" ⟨27, 28⟩,
          .literal .nil ⟨29, 32⟩] ⟨21, 33⟩] ⟨10, 34⟩] ⟨0, 35⟩] := by
    decide +kernel
  have h₁ : parse "(define f (program x (if x x)))" = .ok [e₁] := parse_of_read hread₁ rfl
  have h₂ : parse "(define g (program x (if x x nil)))" = .ok [e₂] := parse_of_read hread₂ rfl
  have he₁ : e₁ ∈ subtermsAll [e₁] := by simp [subtermsAll, mem_subterms_self]
  have he₂ : e₂ ∈ subtermsAll [e₂] := by simp [subtermsAll, mem_subterms_self]
  have hx : (nameNode "x").All Node.Fits :=
    .ofType ⟨by decide, by decide, by decide, by decide⟩
      (List.forall_mem_singleton.mpr
        (.intro ⟨by decide, by decide, by decide, by decide⟩ (List.forall_mem_nil _)))
  have hnil : (literalNode .nil).All Node.Fits :=
    .ofType ⟨by decide, by decide, by decide, by decide⟩
      (List.forall_mem_singleton.mpr
        (.intro ⟨by decide, by decide, by decide, by decide⟩ (List.forall_mem_nil _)))
  have hif : (ifThen (var "x" ⟨25, 26⟩) (var "x" ⟨27, 28⟩) ⟨21, 29⟩).node.All Node.Fits :=
    .ofType ⟨by decide, by decide, by decide, by decide⟩
      (List.forall_mem_cons.mpr ⟨hx, List.forall_mem_cons.mpr ⟨hx, List.forall_mem_singleton.mpr hnil⟩⟩)
  have hfits : v₁.node.All Node.Fits :=
    .ofType ⟨by decide, by decide, by decide, by decide⟩
      (List.forall_mem_cons.mpr ⟨hx, List.forall_mem_singleton.mpr hif⟩)
  obtain ⟨w₁, w₂, hw₁, hw₂, _, _, hagree⟩ :=
    (agree_of_tree_eq h₁ h₂ he₁ he₂ rfl rfl).2 .user .user
      ⟨some "f", v₁.node, .ofNode v₁.node, .user⟩ ⟨some "g", v₂.node, .ofNode v₂.node, .user⟩
      rfl rfl hfits hfits rfl
  exact ⟨e₁, e₂, w₁, w₂, h₁, h₂, hw₁, hw₂, hagree⟩

end Expr

end TraceFront
