import TraceFront.Proofs.Core.Free

/-!
# Names resolve alike

Going from expressions to core terms changes no free variable: patterns, blocks and groups of
functions are resolved without capturing a name or letting one go.

* `free_coreBlock`   a sequence whose values keep their free variables keeps its own;
* `free_core`        so does an expression without synthesized names.

The sequence is taken by the maximal runs of `coreBlock_run_of_functions`, which are the runs of
`freeInSequence` as well.  What a statement hands on is its value, so the induction over expressions
carries the claim for the value of a definition (`Expr.content`) beside the one for the definition.
-/

namespace TraceFront

open Pattern

/-! ## statements -/

theorem mem_usesOf {x : String} {ss : List Statement} :
    x ∈ usesOf ss ↔ ∃ s ∈ ss, x ∈ s.uses := by
  induction ss with
  | nil => simp [usesOf]
  | cons s ss ih => simp [usesOf, ih]

/-- a sequence has free what some statement of it uses -/
theorem exists_uses_of_mem_freeInSequence {x : String} {ss : List Statement}
    (h : x ∈ freeInSequence ss) : ∃ s ∈ ss, x ∈ s.uses := by
  induction hn : ss.length using Nat.strongRecOn generalizing ss with
  | ind n ih =>
    have later : ∀ {s : Statement} {rest after : List Statement}, ss = s :: rest →
        after.Sublist rest → x ∈ freeInSequence after → ∃ s ∈ ss, x ∈ s.uses := by
      intro s rest after hss hsub hx
      have hle := hsub.length_le
      obtain ⟨t, ht, hxt⟩ := ih after.length (by rw [← hn, hss, List.length_cons]; omega) hx rfl
      exact ⟨t, hss ▸ List.mem_cons_of_mem _ (hsub.subset ht), hxt⟩
    cases ss with
    | nil => simp [freeInSequence] at h
    | cons s rest =>
      rw [freeInSequence] at h
      split at h
      · rcases Finset.mem_union.mp (Finset.mem_sdiff.mp h).1 with hx | hx
        · obtain ⟨t, ht, hxt⟩ := mem_usesOf.mp hx
          exact ⟨t, ((List.takeWhile_sublist _).cons_cons s).subset ht, hxt⟩
        · exact later rfl (List.dropWhile_sublist _) hx
      · rcases Finset.mem_union.mp h with hx | hx
        · exact ⟨s, List.mem_cons_self, hx⟩
        · exact later rfl (List.Sublist.refl _) (Finset.mem_sdiff.mp hx).1

namespace Expr

/-- what a statement evaluates: the value of a definition, any other statement as a whole -/
def content : Expr String → Expr String
  | define _ v _ => v
  | e => e

theorem content_of_not_definition {e : Expr String} (h : e.isDefinition = false) :
    e.content = e := by
  cases e with
  | define p v s => cases h
  | _ => rfl

/-- the statement that an expression is -/
def statement (e : Expr String) : Statement :=
  match e with
  | define p v _ => .definition p v.isProgram v.free
  | e => ⟨e.free, [], false⟩

theorem statements_eq_map (es : List (Expr String)) : statements es = es.map statement := by
  induction es with
  | nil => rfl
  | cons e es ih => cases e <;> simp [statements, statement, ih]

theorem statement_of_not_definition {e : Expr String} (h : e.isDefinition = false) :
    e.statement = ⟨e.free, [], false⟩ := by
  cases e with
  | define p v s => cases h
  | _ => rfl

theorem uses_statement (e : Expr String) : e.statement.uses = e.content.free := by
  cases e <;> rfl

theorem isFunction_statement (e : Expr String) :
    e.statement.isFunction = e.isFunctionDefinition := by
  cases h : e.isDefinition with
  | false =>
    rw [statement_of_not_definition h, isFunctionDefinition, asFunction?_of_not_definition h]
    rfl
  | true =>
    cases e with
    | define p v s => exact (asFunction?_define p v s).symm
    | _ => cases h

/-! ## free variables are identifiers -/

theorem content_free_of_mem_freeInSequence {x : String} {es : List (Expr String)}
    (h : x ∈ freeInSequence (statements es)) : ∃ e ∈ es, x ∈ e.content.free := by
  rw [statements_eq_map] at h
  obtain ⟨s, hs, hx⟩ := exists_uses_of_mem_freeInSequence h
  obtain ⟨e, he, rfl⟩ := List.mem_map.mp hs
  exact ⟨e, he, uses_statement e ▸ hx⟩

theorem content_free_of_mem_free {x : String} {e : Expr String} (h : x ∈ e.free) :
    x ∈ e.content.free := by
  cases e with
  | define p v s =>
    have hone : x ∈ freeInSequence (statements [define p v s]) := h
    obtain ⟨e, he, hx⟩ := content_free_of_mem_freeInSequence hone
    rw [List.mem_singleton.mp he] at hx
    exact hx
  | _ => exact h

/-- a free variable of what a statement evaluates stands in the statement -/
theorem identifiers_of_mem_content_free {x : String} {e : Expr String} (h : x ∈ e.content.free) :
    x ∈ e.identifiers := by
  induction e using childInduction with
  | step e ih =>
    have child : ∀ c ∈ e.children, x ∈ c.free → x ∈ e.identifiers := fun c hc hx =>
      identifiers_of_mem_children hc (ih c hc (content_free_of_mem_free hx))
    have sequence : x ∈ freeInSequence (statements e.children) → x ∈ e.identifiers := by
      intro hx
      obtain ⟨c, hc, hx⟩ := content_free_of_mem_freeInSequence hx
      exact identifiers_of_mem_children hc (ih c hc hx)
    have all : ∀ es, (∀ c ∈ es, c ∈ e.children) → x ∈ freeAll es → x ∈ e.identifiers := by
      intro es hes hx
      obtain ⟨c, hc, hx⟩ := (mem_freeAll es).mp hx
      exact child c (hes c hc) hx
    cases e with
    | program p body s => exact sequence (Finset.mem_sdiff.mp h).1
    | ifThen p t s =>
      rcases Finset.mem_union.mp h with hx | hx
      · exact child p (by simp [children]) hx
      · exact child t (by simp [children]) hx
    | ifThenElse p t e s =>
      rcases Finset.mem_union.mp h with hx | hx
      · rcases Finset.mem_union.mp hx with hx | hx
        · exact child p (by simp [children]) hx
        · exact child t (by simp [children]) hx
      · exact child e (by simp [children]) hx
    | block stmts s => exact sequence h
    | define p v s => exact child v (by simp [children]) h
    | withAddress t e s =>
      rcases Finset.mem_union.mp h with hx | hx
      · exact child t (by simp [children]) hx
      · exact child e (by simp [children]) hx
    | tuple es s => exact all es (fun c hc => hc) h
    | apply f args s =>
      rcases Finset.mem_union.mp h with hx | hx
      · exact child f (by simp [children]) hx
      · exact all args (fun c hc => List.mem_cons_of_mem _ hc) hx
    | literal l s => exact absurd h (Finset.notMem_empty x)
    | var n s => exact List.mem_singleton.mpr (Finset.mem_singleton.mp h)
    | this s => exact absurd h (Finset.notMem_empty x)
    | splice e s => exact child e (by simp [children]) h
    | unquote e s => exact child e (by simp [children]) h

/-- every name in the expressions is apart from the synthesized ones -/
def NamesApart (es : List (Expr String)) : Prop := ∀ n ∈ identifiersAll es, Apart n

/-! ## statement sequences -/

theorem free_sequenceOf (cs : List (Core String)) : (sequenceOf cs).free = Core.freeAll cs := by
  unfold sequenceOf
  split
  · simp [Core.freeAll]
  · rfl

/-- an expression in front adds its free variables -/
theorem free_coreBlock_expression {e : Expr String} (h : e.isDefinition = false)
    (rest : List (Expr String)) :
    (coreBlock (e :: rest)).free = e.core.free ∪ (coreBlock rest).free := by
  have hrest : (coreBlock rest).free =
      Core.freeAll ((following rest).steps ++ (following rest).core.toList) := by
    cases hs : (following rest).steps with
    | nil =>
      rw [coreBlock, Following.term?, hs]
      cases (following rest).core with
      | none => rfl
      | some c => simp [Core.freeAll]
    | cons c cs => rw [coreBlock, getD_term?_of_steps hs, free_sequenceOf]
  have hsteps : (following (e :: rest)).steps = e.core :: (following rest).steps := by
    rw [following_expression h]
    rfl
  have hcore : (following (e :: rest)).core = (following rest).core := by
    rw [following_expression h]
    rfl
  rw [hrest, coreBlock, getD_term?_of_steps hsteps, hcore, free_sequenceOf]
  rfl

/-- the values and the names of a run of functions -/
theorem run_of_functions {run : List (Expr String)}
    (hrun : ∀ e ∈ run, e.isFunctionDefinition = true)
    (hval : ∀ e ∈ run, e.content.core.free = e.content.free) :
    Core.freeBindings ((functionsOf run).map fun f => (f.1, f.2.core)) =
        usesOf (run.map statement) ∧
      (functionsOf run).map (·.1) = (run.map statement).flatMap Statement.binds := by
  induction run with
  | nil => exact ⟨rfl, rfl⟩
  | cons e run ih =>
    obtain ⟨huses, hbinds⟩ := ih (fun e' he' => hrun e' (List.mem_cons_of_mem _ he'))
      (fun e' he' => hval e' (List.mem_cons_of_mem _ he'))
    obtain ⟨f, hf⟩ := Option.isSome_iff_exists.mp (hrun e List.mem_cons_self)
    obtain ⟨s, rfl, hv⟩ := asFunction?_eq_some hf
    have hfs : functionsOf (define (.name f.1) f.2 s :: run) = f :: functionsOf run :=
      List.filterMap_cons_some hf
    have hvalue : f.2.core.free = f.2.free := hval _ List.mem_cons_self
    rw [hfs]
    constructor
    · rw [List.map_cons, Core.freeBindings, huses, hvalue]
      rfl
    · rw [List.map_cons, hbinds]
      rfl

theorem freeInSequence_function {e : Expr String} (h : e.isFunctionDefinition = true)
    (rest : List (Expr String)) : freeInSequence (statements (e :: rest)) =
      (usesOf ((e :: rest.takeWhile isFunctionDefinition).map statement) ∪
          freeInSequence (statements (rest.dropWhile isFunctionDefinition))) \
        bindsOf ((e :: rest.takeWhile isFunctionDefinition).map statement) := by
  have hkind : Statement.isFunction ∘ statement = isFunctionDefinition :=
    funext isFunction_statement
  rw [statements_eq_map, statements_eq_map, List.map_cons, freeInSequence, isFunction_statement,
    if_pos h, List.takeWhile_map, List.dropWhile_map]
  rw [hkind]
  rfl

theorem freeInSequence_other {e : Expr String} (h : e.isFunctionDefinition = false)
    (rest : List (Expr String)) : freeInSequence (statements (e :: rest)) =
      e.content.free ∪ (freeInSequence (statements rest) \ e.statement.binds.toFinset) := by
  rw [statements_eq_map, statements_eq_map, List.map_cons, freeInSequence, isFunction_statement,
    if_neg (by simp [h]), uses_statement]

theorem apart_of_mem_freeInSequence {stmts : List (Expr String)} (h : NamesApart stmts) :
    ∀ x ∈ freeInSequence (statements stmts), Apart x := by
  intro x hx
  obtain ⟨e, he, hx⟩ := content_free_of_mem_freeInSequence hx
  exact h x (mem_identifiersAll.mpr ⟨e, he, identifiers_of_mem_content_free hx⟩)

theorem NamesApart.mono {es fs : List (Expr String)} (h : NamesApart fs) (hsub : ∀ e ∈ es, e ∈ fs) :
    NamesApart es := by
  intro x hx
  obtain ⟨e, he, hx⟩ := mem_identifiersAll.mp hx
  exact h x (mem_identifiersAll.mpr ⟨e, hsub e he, hx⟩)

theorem free_coreBlock_define {p : Pattern String} {v : Expr String} {s : Span}
    (hf : (define p v s).asFunction? = none) {rest : List (Expr String)} (hnames : NamesApart rest)
    (hv : v.core.free = v.free)
    (hrest : (coreBlock rest).free = freeInSequence (statements rest)) :
    (coreBlock (define p v s :: rest)).free =
      freeInSequence (statements (define p v s :: rest)) := by
  have hkind : (define p v s).isFunctionDefinition = false := by
    rw [isFunctionDefinition, hf]
    rfl
  rw [freeInSequence_other hkind, coreBlock_define, definePattern_of_asFunction?_eq_none hf,
    free_bindAll_bindings, hv]
  show v.free ∪ _ = v.free ∪ (_ \ p.binders.toFinset)
  cases rest with
  | nil =>
    -- what follows is the name of the pattern itself, which the bindings bind
    rw [if_pos List.isEmpty_nil, sdiff_boundNames_wholeName]
    simp [statements, freeInSequence]
  | cons e rest =>
    rw [if_neg (by simp), hrest, sdiff_boundNames (apart_of_mem_freeInSequence hnames)]

theorem free_coreBlock_functions {e : Expr String} {f : String × Expr String}
    (hf : e.asFunction? = some f)
    {rest : List (Expr String)} (hval : ∀ e' ∈ e :: rest, e'.content.core.free = e'.content.free)
    (hafter : (coreBlock (rest.dropWhile isFunctionDefinition)).free =
      freeInSequence (statements (rest.dropWhile isFunctionDefinition))) :
    (coreBlock (e :: rest)).free = freeInSequence (statements (e :: rest)) := by
  have hkind : e.isFunctionDefinition = true := by
    rw [isFunctionDefinition, hf]
    rfl
  have hrun : ∀ e' ∈ e :: rest.takeWhile isFunctionDefinition,
      e'.isFunctionDefinition = true := by
    intro e' he'
    rcases List.mem_cons.mp he' with rfl | he'
    · exact hkind
    · exact List.all_eq_true.mp List.all_takeWhile e' he'
  have hfs : functionsOf (e :: rest.takeWhile isFunctionDefinition) =
      f :: functionsOf (rest.takeWhile isFunctionDefinition) :=
    List.filterMap_cons_some hf
  obtain ⟨huses, hbinds⟩ := run_of_functions hrun fun e' he' =>
    hval e' (((List.takeWhile_sublist _).cons_cons e).subset he')
  rw [hfs] at huses hbinds
  rw [coreBlock_run_of_functions rest hf, freeInSequence_function hkind, Core.free, huses,
    bindsOf, ← hbinds, List.map_map]
  show (_ ∪ _) \ ((f :: functionsOf (rest.takeWhile isFunctionDefinition)).map (·.1)).toFinset = _
  split
  · rename_i hempty
    -- what follows is the last name of the group
    have hlast := List.mem_toFinset.mpr (List.mem_map_of_mem (f := (·.1))
      (List.getLast_mem (List.cons_ne_nil f (functionsOf (rest.takeWhile isFunctionDefinition)))))
    have hnil : freeInSequence (statements (rest.dropWhile isFunctionDefinition)) = ∅ := by
      rw [List.isEmpty_iff.mp hempty]
      simp [statements, freeInSequence]
    rw [hnil, Finset.union_sdiff_distrib, Finset.union_sdiff_distrib, Core.free, Finset.empty_sdiff,
      Finset.sdiff_eq_empty_iff_subset.mpr (Finset.singleton_subset_iff.mpr hlast)]
  · rw [hafter]

/-- a statement sequence keeps its free variables if what its statements evaluate does -/
theorem free_coreBlock {stmts : List (Expr String)} (hnames : NamesApart stmts)
    (hval : ∀ e ∈ stmts, e.content.core.free = e.content.free) :
    (coreBlock stmts).free = freeInSequence (statements stmts) := by
  -- on the length: what is left after a run of functions is not the tail
  induction hn : stmts.length using Nat.strongRecOn generalizing stmts with
  | ind n ih =>
    have later : ∀ {e : Expr String} {rest after : List (Expr String)}, stmts = e :: rest →
        after.Sublist rest →
        (coreBlock after).free = freeInSequence (statements after) := by
      intro e rest after hs hsub
      have hin : ∀ e' ∈ after, e' ∈ stmts := fun e' he' =>
        hs ▸ List.mem_cons_of_mem _ (hsub.subset he')
      have hle := hsub.length_le
      exact ih after.length (by rw [← hn, hs, List.length_cons]; omega) (hnames.mono hin)
        (fun e' he' => hval e' (hin e' he')) rfl
    cases stmts with
    | nil => simp [coreBlock, following, Following.term?, Following.nothing, statements,
        freeInSequence, Core.free]
    | cons e rest =>
      have hrest := later rfl (List.Sublist.refl rest)
      cases he : e.isDefinition with
      | false =>
        have hkind : e.isFunctionDefinition = false := by
          rw [isFunctionDefinition, asFunction?_of_not_definition he]
          rfl
        have hcore := hval e List.mem_cons_self
        rw [content_of_not_definition he] at hcore
        rw [free_coreBlock_expression he, freeInSequence_other hkind, hrest, hcore,
          content_of_not_definition he, statement_of_not_definition he]
        simp
      | true =>
        cases hf : e.asFunction? with
        | some f =>
          exact free_coreBlock_functions hf hval (later rfl (List.dropWhile_sublist _))
        | none =>
          cases e with
          | define p v s =>
            exact free_coreBlock_define hf (hnames.mono fun e' => List.mem_cons_of_mem _)
              (hval _ List.mem_cons_self) hrest
          | _ => cases he

/-! ## expressions -/

/-- a definition by itself is a sequence of one statement -/
theorem free_core_of_content {e : Expr String} (hnames : ∀ n ∈ e.identifiers, Apart n)
    (h : e.content.core.free = e.content.free) : e.core.free = e.free := by
  cases e with
  | define p v s =>
    have hone : NamesApart [define p v s] := by
      intro n hn
      obtain ⟨e, he, hn⟩ := mem_identifiersAll.mp hn
      rw [List.mem_singleton.mp he] at hn
      exact hnames n hn
    exact free_coreBlock hone (List.forall_mem_singleton.mpr h)
  | _ => exact h

theorem freeAll_coreAll {es : List (Expr String)} (h : ∀ e ∈ es, e.core.free = e.free) :
    Core.freeAll (coreAll es) = freeAll es := by
  induction es with
  | nil => rfl
  | cons e es ih =>
    obtain ⟨he, hes⟩ := List.forall_mem_cons.mp h
    rw [coreAll, Core.freeAll, freeAll, he, ih hes]

theorem free_content_core {e : Expr String} (hnames : ∀ n ∈ e.identifiers, Apart n) :
    e.content.core.free = e.content.free := by
  induction e using childInduction with
  | step e ih =>
    have below : ∀ c ∈ e.children, ∀ n ∈ c.identifiers, Apart n := fun c hc n hn =>
      hnames n (identifiers_of_mem_children hc hn)
    have content : ∀ c ∈ e.children, c.content.core.free = c.content.free := fun c hc =>
      ih c hc (below c hc)
    have child : ∀ c ∈ e.children, c.core.free = c.free := fun c hc =>
      free_core_of_content (below c hc) (content c hc)
    have names : NamesApart e.children := by
      intro n hn
      obtain ⟨c, hc, hn⟩ := mem_identifiersAll.mp hn
      exact below c hc n hn
    cases e with
    | program p body s =>
      show (Core.bindAll p.projections (coreBlock body)).free \ {p.wholeName} =
        _ \ p.binders.toFinset
      have hbody : (coreBlock body).free = freeInSequence (statements body) :=
        free_coreBlock names content
      rw [free_bindAll_projections, hbody]
      exact sdiff_boundNames (apart_of_mem_freeInSequence names) p
    | ifThen p t s =>
      show p.core.free ∪ t.core.free ∪ ∅ = p.free ∪ t.free
      rw [child p (by simp [children]), child t (by simp [children]), Finset.union_empty]
    | ifThenElse p t e s =>
      show p.core.free ∪ t.core.free ∪ e.core.free = p.free ∪ t.free ∪ e.free
      rw [child p (by simp [children]), child t (by simp [children]), child e (by simp [children])]
    | block stmts s => exact free_coreBlock names content
    | define p v s => exact child v (by simp [children])
    | withAddress t e s =>
      show t.core.free ∪ e.core.free = t.free ∪ e.free
      rw [child t (by simp [children]), child e (by simp [children])]
    | tuple es s => exact freeAll_coreAll child
    | apply f args s =>
      show f.core.free ∪ Core.freeAll (coreAll args) = f.free ∪ freeAll args
      rw [child f (by simp [children]),
        freeAll_coreAll fun c hc => child c (List.mem_cons_of_mem _ hc)]
    | literal l s => rfl
    | var n s => rfl
    | this s => rfl
    | splice e s => exact child e (by simp [children])
    | unquote e s => exact child e (by simp [children])

theorem free_core {e : Expr String} (hnames : ∀ n ∈ e.identifiers, Apart n) :
    e.core.free = e.free :=
  free_core_of_content hnames (free_content_core hnames)

theorem apart_of_mem_free {e : Expr String} (hnames : ∀ n ∈ e.identifiers, Apart n) :
    ∀ x ∈ e.free, Apart x := fun x hx =>
  hnames x (identifiers_of_mem_content_free (content_free_of_mem_free hx))

/-- **Names resolve alike.**  Every expression of an accepted source has the free variables of its
core term, and none of them is a name that was synthesized for a tuple pattern or a wildcard. -/
theorem free_core_of_parse {source : String} {es : List (Expr String)} (h : parse source = .ok es)
    {e : Expr String} (he : e ∈ subtermsAll es) :
    e.core.free = e.free ∧ ∀ p : Pattern String, p.isAtomic = false → p.wholeName ∉ e.core.free := by
  have hnames : ∀ n ∈ e.identifiers, Apart n := fun n hn =>
    (identifiers_of_mem_parse h he n hn).apart
  have hfree := free_core hnames
  refine ⟨hfree, ?_⟩
  intro p hp hmem
  rw [hfree] at hmem
  exact apart_of_mem_free hnames _ hmem p hp rfl

/-- a tuple pattern with a wildcard in front of a function that calls itself: only the tuple's value
is free -/
theorem free_core_of_tuple_before_function :
    ∃ e, parse "(block (define [a _] x) (define f (program n (f a n))) f)" = .ok [e] ∧
      e.core.free = {"x"} ∧
        (Pattern.tuple [.name "a", .wildcard]).wholeName ∉ e.core.free := by
  let call := apply (var "f" ⟨46, 47⟩) [var "a" ⟨48, 49⟩, var "n" ⟨50, 51⟩] ⟨45, 52⟩
  let e := block [define (.tuple [.name "a", .wildcard]) (var "x" ⟨21, 22⟩) ⟨7, 23⟩,
    define (.name "f") (program (.name "n") [call] ⟨34, 53⟩) ⟨24, 54⟩, var "f" ⟨55, 56⟩] ⟨0, 57⟩
  have hread : read "(block (define [a _] x) (define f (program n (f a n))) f)" = .ok
      [.list [.symbol "block" ⟨1, 6⟩,
        .list [.symbol "define" ⟨8, 14⟩,
          .vector [.symbol "a" ⟨16, 17⟩, .symbol "_" ⟨18, 19⟩] ⟨15, 20⟩,
          .symbol "x" ⟨21, 22⟩] ⟨7, 23⟩,
        .list [.symbol "define" ⟨25, 31⟩, .symbol "f" ⟨32, 33⟩,
          .list [.symbol "program" ⟨35, 42⟩, .symbol "n" ⟨43, 44⟩,
            .list [.symbol "f" ⟨46, 47⟩, .symbol "a" ⟨48, 49⟩, .symbol "n" ⟨50, 51⟩] ⟨45, 52⟩]
            ⟨34, 53⟩] ⟨24, 54⟩,
        .symbol "f" ⟨55, 56⟩] ⟨0, 57⟩] := by decide +kernel
  have h : parse "(block (define [a _] x) (define f (program n (f a n))) f)" = .ok [e] :=
    parse_of_read hread rfl
  have he : e ∈ subtermsAll [e] :=
    mem_subtermsAll.mpr ⟨e, List.mem_cons_self, mem_subterms_self e⟩
  obtain ⟨hfree, hwhole⟩ := free_core_of_parse h he
  refine ⟨e, h, ?_, hwhole _ rfl⟩
  rw [hfree]
  simp [e, call, Expr.free, statements, freeInSequence, usesOf, bindsOf, Statement.definition,
    isProgram, Pattern.isAtomic, Pattern.binders, Pattern.bindersAll, Expr.freeAll]
  decide

end Expr

end TraceFront
