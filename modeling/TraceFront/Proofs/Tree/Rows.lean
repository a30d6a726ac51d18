import TraceFront.Proofs.Tree.Walk

/-!
# The rows of the table of types

The check of a tree looks at the names of fields and at the value of a leaf.  It does not look at
what else a node holds: a sequence has no names of fields, and a node with a value may have children
as well.  So two kinds of nodes pass that break their rows.

* `Node.FitsRow`               the children that each row of the table asks for;
* `Node.FitsTable`             a tagged node has a type of the table and fits its row;
* `Node.SlipsThrough`          the children that break a row unnoticed, and `Node.Overlooked` nodes
                               that have them;
* `Node.problem?_eq_none_iff`  the check of one node;
* `Node.shapeError?_by_rows`   the check of a tree.
-/

namespace TraceFront

namespace Node

/-- the children are fields with exactly these names, in this order -/
def HoldsFields (n : Node) (names : List String) : Prop :=
  ∃ fs, n.children = .keyed fs ∧ fs.map (·.1) = names

/-- the row of the table for each type -/
def FitsRow (n : Node) : NodeType → Prop
  | .program => n.HoldsFields ["pattern", "body"]
  | .conditional => n.HoldsFields ["predicate", "then", "else"]
  | .block => ∃ ns, n.children = .sequence ns
  | .withAddress => n.HoldsFields ["tag", "expression"]
  | .definition => ∃ p name v, n.children = .keyed [("pattern", p), (name, v)] ∧ name ≠ "pattern"
  | .application => ∃ operator operands, n.children = .sequence (operator :: operands)
  | .tuple => ∃ ns, n.children = .sequence ns
  | .literal => ∃ m, n.children = .keyed [("value", m)] ∧ m.tag = none ∧ m.isLeaf = true
  | .reference => ∃ m s, n.children = .keyed [("name", m)] ∧ m.tag = none ∧ m.isLeaf = true ∧
      m.value = some (.symbol s)
  | .this => n.children.isEmpty = true
  | .splice => n.HoldsFields ["expression"]
  | .unquote => n.HoldsFields ["expression"]

/-- a tagged node has the tag of a type and fits the row of this type -/
def FitsTable (n : Node) : Prop :=
  ∀ tag, n.tag = some tag → ∃ t : NodeType, tag = t.tag ∧ n.FitsRow t

/-- children that break the row of a type without notice: a sequence where there should be nothing,
or something below the value of a literal or below the name of a variable -/
def SlipsThrough (n : Node) : NodeType → Prop
  | .this => ∃ m ms, n.children = .sequence (m :: ms)
  | .literal => ∃ m v, n.children = .keyed [("value", m)] ∧ m.tag = none ∧ m.value = some v ∧
      m.children.isEmpty = false
  | .reference => ∃ m s, n.children = .keyed [("name", m)] ∧ m.tag = none ∧
      m.value = some (.symbol s) ∧ m.children.isEmpty = false
  | _ => False

/-- the node breaks its row without notice -/
def Overlooked (n : Node) : Prop := ∃ t : NodeType, n.tag = some t.tag ∧ n.SlipsThrough t

theorem SlipsThrough.not_fitsRow {n : Node} {t : NodeType} (h : n.SlipsThrough t) :
    ¬n.FitsRow t := by
  cases t with
  | this =>
    obtain ⟨m, ms, hc⟩ := h
    intro hrow
    rw [FitsRow, hc] at hrow
    cases hrow
  | literal =>
    obtain ⟨m, v, hc, -, -, hbelow⟩ := h
    intro ⟨m', hc', _, hleaf⟩
    cases hc.symm.trans hc'
    rw [isLeaf, hbelow] at hleaf
    cases hleaf
  | reference =>
    obtain ⟨m, s, hc, -, -, hbelow⟩ := h
    intro ⟨m', s', hc', _, hleaf, _⟩
    cases hc.symm.trans hc'
    rw [isLeaf, hbelow] at hleaf
    cases hleaf
  | _ => exact h.elim

theorem Overlooked.not_fitsTable {n : Node} (h : n.Overlooked) : ¬n.FitsTable := by
  obtain ⟨t, ht, hslips⟩ := h
  intro htable
  obtain ⟨u, hu, hrow⟩ := htable _ ht
  cases NodeType.tag_injective hu
  exact hslips.not_fitsRow hrow

/-! ## the names of fields -/

theorem fieldNames_eq_iff {n : Node} {names : List String} (hne : names ≠ []) :
    n.fieldNames = names ↔ n.HoldsFields names := by
  obtain ⟨t, v, c⟩ := n
  constructor
  · intro h
    cases c with
    | keyed fs => exact ⟨fs, rfl, h⟩
    | none => exact absurd h.symm hne
    | sequence ns => exact absurd h.symm hne
  · intro ⟨fs, hc, hnames⟩
    cases hc
    exact hnames

/-- a node without names of fields has nothing below, or a sequence -/
theorem fieldNames_eq_nil_iff {n : Node} :
    n.fieldNames = [] ↔ n.children.isEmpty = true ∨ ∃ m ms, n.children = .sequence (m :: ms) := by
  obtain ⟨t, v, c⟩ := n
  cases c with
  | none => exact iff_of_true rfl (.inl rfl)
  | keyed fs =>
    cases fs with
    | nil => exact iff_of_true rfl (.inl rfl)
    | cons f fs => simp [fieldNames, Children.isEmpty, Children.length]
  | sequence ns =>
    refine iff_of_true rfl ?_
    cases ns with
    | nil => exact .inl rfl
    | cons m ms => exact .inr ⟨m, ms, rfl⟩

theorem holdsFields_singleton_iff {n : Node} {name : String} :
    n.HoldsFields [name] ↔ ∃ m, n.children = .keyed [(name, m)] := by
  constructor
  · intro ⟨fs, hc, hnames⟩
    obtain ⟨f, rfl, rfl⟩ := List.map_eq_singleton_iff.mp hnames
    exact ⟨f.2, hc⟩
  · intro ⟨m, hc⟩
    exact ⟨_, hc, rfl⟩

theorem holdsFields_pair_iff {n : Node} {a b : String} :
    n.HoldsFields [a, b] ↔ ∃ p v, n.children = .keyed [(a, p), (b, v)] := by
  constructor
  · intro ⟨fs, hc, hnames⟩
    obtain ⟨f, fs, rfl, rfl, hrest⟩ := List.map_eq_cons_iff.mp hnames
    obtain ⟨g, rfl, rfl⟩ := List.map_eq_singleton_iff.mp hrest
    exact ⟨f.2, g.2, hc⟩
  · intro ⟨p, v, hc⟩
    exact ⟨_, hc, rfl⟩

/-! ## one node -/

theorem problem?_of_tag {n : Node} {t : NodeType} (ht : n.tag = some t.tag) :
    n.problem? =
      match t.layout with
      | .sequence => n.sequenceProblem? t
      | .definition => n.definitionProblem?
      | .fields names => n.fieldsProblem? t names := by
  cases hlayout : t.layout with
  | sequence | definition | fields => simp only [problem?, ht, NodeType.ofTag?_tag, hlayout]

theorem problem?_of_unknown {n : Node} {tag : String} (htag : n.tag = some tag)
    (h : ¬∃ t : NodeType, tag = t.tag) : n.problem? = some (.unknownType tag) := by
  have hunknown : NodeType.ofTag? tag = none := by
    refine List.find?_eq_none.mpr fun t _ htag' => h ⟨t, ?_⟩
    exact (beq_iff_eq.mp htag').symm
  rw [problem?, htag]
  simp only [hunknown]

theorem sequenceProblem?_eq_none_iff {n : Node} {t : NodeType} :
    n.sequenceProblem? t = none ↔
      ∃ ns, n.children = .sequence ns ∧ (t = .application → ns ≠ []) := by
  unfold sequenceProblem?
  split
  · rename_i ns hc
    rw [ite_eq_right_iff]
    simp only [reduceCtorEq, imp_false, Bool.and_eq_true, decide_eq_true_eq, List.isEmpty_iff,
      not_and]
    constructor
    · exact fun h => ⟨ns, hc, h⟩
    · intro ⟨ns', hc', h⟩
      cases hc.symm.trans hc'
      exact h
  · rename_i hother
    refine iff_of_false nofun ?_
    intro ⟨ns, hc, _⟩
    exact hother ns hc

theorem definitionProblem?_eq_none_iff {n : Node} :
    n.definitionProblem? = none ↔
      ∃ p name v, n.children = .keyed [("pattern", p), (name, v)] ∧ name ≠ "pattern" := by
  -- both sides say that the names are `pattern` and another one
  have hnames : n.definitionProblem? = none ↔
      ∃ name, n.fieldNames = ["pattern", name] ∧ name ≠ "pattern" := by
    unfold definitionProblem?
    split
    · rename_i p v hpv
      rw [ite_eq_left_iff, hpv]
      simp only [reduceCtorEq, imp_false, not_not]
      constructor
      · rintro ⟨rfl, hv⟩
        exact ⟨v, rfl, hv⟩
      · intro ⟨name, heq, hne⟩
        cases heq
        exact ⟨rfl, hne⟩
    · rename_i hother
      refine iff_of_false nofun ?_
      intro ⟨name, heq, _⟩
      exact hother _ _ heq
  rw [hnames]
  simp only [fieldNames_eq_iff (List.cons_ne_nil _ _), holdsFields_pair_iff]
  constructor
  · intro ⟨name, ⟨p, v, hc⟩, hne⟩
    exact ⟨p, name, v, hc, hne⟩
  · intro ⟨p, name, v, hc, hne⟩
    exact ⟨name, ⟨p, v, hc⟩, hne⟩

/-- the names of the fields decide for all types but literals and variables -/
theorem fieldsProblem?_eq_none_iff {n : Node} {t : NodeType} {names : List Field}
    (hl : t ≠ .literal) (hr : t ≠ .reference) :
    n.fieldsProblem? t names = none ↔ n.fieldNames = names.map Field.text := by
  rw [fieldsProblem?]
  · simp
  · exact hl
  · exact hr

theorem leafProblem?_eq_none_iff {n : Node} {f : Field} {accepts : Value → Bool} {m : Node}
    (hc : n.children = .keyed [(f.text, m)]) :
    n.leafProblem? f accepts = none ↔
      m.tag = none ∧ ∃ v, m.value = some v ∧ accepts v = true := by
  have hfield : n.field? f.text = some m := by
    rw [field?, hc]
    simp
  rw [leafProblem?, hfield]
  cases hv : m.value with
  | none => simp [hv]
  | some v => simp [hv]

/-- the problem of a literal or a variable is that of its fields or that of its leaf -/
theorem fieldThenLeaf_eq_none_iff {n : Node} {f : Field} {accepts : Value → Bool}
    {wrong : ShapeProblem} :
    (if n.fieldNames ≠ [f.text] then some wrong else n.leafProblem? f accepts) = none ↔
      ∃ m v, n.children = .keyed [(f.text, m)] ∧ m.tag = none ∧ m.value = some v ∧
        accepts v = true := by
  by_cases hnames : n.fieldNames = [f.text]
  · obtain ⟨m, hc⟩ :=
      holdsFields_singleton_iff.mp ((fieldNames_eq_iff (List.cons_ne_nil _ _)).mp hnames)
    rw [if_neg (not_not_intro hnames), leafProblem?_eq_none_iff hc]
    constructor
    · intro ⟨htag, v, hv, hacc⟩
      exact ⟨m, v, hc, htag, hv, hacc⟩
    · intro ⟨m', v, hc', htag, hv, hacc⟩
      cases hc.symm.trans hc'
      exact ⟨htag, v, hv, hacc⟩
  · rw [if_pos hnames]
    refine iff_of_false nofun ?_
    intro ⟨m, v, hc, _⟩
    refine hnames ?_
    rw [fieldNames, hc]
    rfl

theorem exists_value_of_isLeaf {m : Node} (h : m.isLeaf = true) : ∃ v, m.value = some v :=
  Option.isSome_iff_exists.mp (Bool.and_eq_true_iff.mp h).2

/-- a node with a value is a leaf unless something is below it -/
theorem isLeaf_or_below {m : Node} {v : Value} (hv : m.value = some v) :
    m.isLeaf = true ∨ m.children.isEmpty = false := by
  rw [isLeaf, hv]
  cases m.children.isEmpty with
  | true => exact .inl rfl
  | false => exact .inr rfl

theorem problem?_eq_none_of_tag {n : Node} {t : NodeType} (ht : n.tag = some t.tag) :
    n.problem? = none ↔ n.FitsRow t ∨ n.SlipsThrough t := by
  have hnames : ∀ {names : List Field}, t.layout = .fields names → t ≠ .literal →
      t ≠ .reference → (n.problem? = none ↔ n.fieldNames = names.map Field.text) := by
    intro names hlayout hl hr
    rw [problem?_of_tag ht, hlayout]
    exact fieldsProblem?_eq_none_iff hl hr
  have hsequence : t.layout = .sequence → (n.problem? = none ↔
      ∃ ns, n.children = .sequence ns ∧ (t = .application → ns ≠ [])) := by
    intro hlayout
    rw [problem?_of_tag ht, hlayout]
    exact sequenceProblem?_eq_none_iff
  cases t with
  | program | conditional | withAddress | splice | unquote =>
    rw [hnames rfl nofun nofun]
    exact (fieldNames_eq_iff (List.cons_ne_nil _ _)).trans (or_iff_left id).symm
  | this =>
    rw [hnames rfl nofun nofun]
    exact fieldNames_eq_nil_iff
  | block | tuple =>
    rw [hsequence rfl]
    simp [FitsRow, SlipsThrough]
  | application =>
    rw [hsequence rfl]
    simp only [forall_const, FitsRow, SlipsThrough, or_false]
    constructor
    · intro ⟨ns, hc, hne⟩
      obtain ⟨m, ms, rfl⟩ := List.exists_cons_of_ne_nil hne
      exact ⟨m, ms, hc⟩
    · intro ⟨m, ms, hc⟩
      exact ⟨_, hc, List.cons_ne_nil _ _⟩
  | definition =>
    rw [problem?_of_tag ht]
    exact definitionProblem?_eq_none_iff.trans (or_iff_left id).symm
  | literal =>
    rw [problem?_of_tag ht]
    refine (fieldThenLeaf_eq_none_iff (f := .value)).trans ?_
    constructor
    · intro ⟨m, v, hc, htag, hv, _⟩
      rcases isLeaf_or_below hv with hleaf | hbelow
      · exact .inl ⟨m, hc, htag, hleaf⟩
      · exact .inr ⟨m, v, hc, htag, hv, hbelow⟩
    · rintro (⟨m, hc, htag, hleaf⟩ | ⟨m, v, hc, htag, hv, -⟩)
      · obtain ⟨v, hv⟩ := exists_value_of_isLeaf hleaf
        exact ⟨m, v, hc, htag, hv, rfl⟩
      · exact ⟨m, v, hc, htag, hv, rfl⟩
  | reference =>
    rw [problem?_of_tag ht]
    refine (fieldThenLeaf_eq_none_iff (f := .name)).trans ?_
    constructor
    · intro ⟨m, v, hc, htag, hv, hsymbol⟩
      cases v with
      | constant l => cases hsymbol
      | symbol s =>
        rcases isLeaf_or_below hv with hleaf | hbelow
        · exact .inl ⟨m, s, hc, htag, hleaf, hv⟩
        · exact .inr ⟨m, s, hc, htag, hv, hbelow⟩
    · rintro (⟨m, s, hc, htag, -, hv⟩ | ⟨m, s, hc, htag, hv, -⟩)
      · exact ⟨m, _, hc, htag, hv, rfl⟩
      · exact ⟨m, _, hc, htag, hv, rfl⟩

/-- a node passes exactly if it fits its row or breaks it without notice -/
theorem problem?_eq_none_iff {n : Node} : n.problem? = none ↔ n.FitsTable ∨ n.Overlooked := by
  cases htag : n.tag with
  | none =>
    refine iff_of_true ?_ (.inl ?_)
    · rw [problem?, htag]
    · intro tag h
      cases htag.symm.trans h
  | some tag =>
    by_cases hknown : ∃ t : NodeType, tag = t.tag
    · obtain ⟨t, rfl⟩ := hknown
      rw [problem?_eq_none_of_tag htag]
      constructor
      · rintro (hrow | hslips)
        · refine .inl fun tag h => ⟨t, ?_, hrow⟩
          exact (Option.some.inj (htag.symm.trans h)).symm
        · exact .inr ⟨t, htag, hslips⟩
      · rintro (htable | ⟨u, hu, hslips⟩)
        · obtain ⟨u, hu, hrow⟩ := htable _ htag
          cases NodeType.tag_injective hu
          exact .inl hrow
        · cases NodeType.tag_injective (Option.some.inj (htag.symm.trans hu))
          exact .inr hslips
    · rw [problem?_of_unknown htag hknown]
      refine iff_of_false (Option.some_ne_none _) ?_
      rintro (htable | ⟨t, ht, -⟩)
      · obtain ⟨t, ht, -⟩ := htable _ htag
        exact hknown ⟨t, ht⟩
      · exact hknown ⟨t, Option.some.inj (htag.symm.trans ht)⟩

/-! ## whole trees -/

theorem map_problem?_eq_none_iff {e : Address × Node} :
    e.2.problem?.map (ShapeError.mk e.1) = none ↔ e.2.FitsTable ∨ e.2.Overlooked := by
  rw [Option.map_eq_none_iff, problem?_eq_none_iff]

/-- **The check of a tree, row by row.**  A tree passes exactly if every tagged node in it fits its
row of the table or is one that the check overlooks.  If it does not pass, the error is about the
first node in the order of the walk that does neither. -/
theorem shapeError?_by_rows (n : Node) :
    (n.shapeError? = none ↔ n.All fun m => m.FitsTable ∨ m.Overlooked) ∧
      ∀ e, n.shapeError? = some e ↔ ∃ before m after,
        n.walk = before ++ (e.address, m) :: after ∧
        (∀ f ∈ before, f.2.FitsTable ∨ f.2.Overlooked) ∧ ¬m.FitsTable ∧ ¬m.Overlooked ∧
        m.problem? = some e.problem := by
  constructor
  · rw [all_iff_walk, shapeError?, List.findSome?_eq_none_iff]
    simp only [map_problem?_eq_none_iff]
  · intro e
    rw [shapeError?, List.findSome?_eq_some_iff]
    simp only [map_problem?_eq_none_iff]
    constructor
    · intro ⟨before, ⟨a, m⟩, after, hwalk, hproblem, hbefore⟩
      obtain ⟨problem, hm, rfl⟩ := Option.map_eq_some_iff.mp hproblem
      have hbreaks : ¬(m.FitsTable ∨ m.Overlooked) := by
        rw [← problem?_eq_none_iff, hm]
        exact nofun
      exact ⟨before, m, after, hwalk, hbefore, fun h => hbreaks (.inl h),
        fun h => hbreaks (.inr h), hm⟩
    · intro ⟨before, m, after, hwalk, hbefore, _, _, hm⟩
      exact ⟨before, (e.address, m), after, hwalk, by rw [hm]; rfl, hbefore⟩

/-- what the check overlooks: an item below `this`, an item below the value of a literal, and so the
first of two nodes that break their rows -/
theorem shapeError?_overlooks :
    let item := leaf (.constant .nil)
    let this := sequence "this" [item]
    let value : Node := ⟨none, some (.constant .nil), .sequence [item]⟩
    let literal := keyed "literal" [("value", value)]
    let block := sequence "block" [this, keyed "lambda" []]
    (this.shapeError? = none ∧ ¬this.FitsTable) ∧
      (literal.shapeError? = none ∧ value.isLeaf = false ∧ ¬literal.FitsTable) ∧
      block.shapeError? = some ⟨⟨[.index 1]⟩, .unknownType "lambda"⟩ ∧
      block.walk.map (·.1) = [⟨[]⟩, ⟨[.index 0]⟩, ⟨[.index 0, .index 0]⟩, ⟨[.index 1]⟩] ∧
      block.get? ⟨[.index 0]⟩ = some this := by
  intro item this value literal block
  have hthis : this.Overlooked := ⟨.this, rfl, item, [], rfl⟩
  have hliteral : literal.Overlooked := ⟨.literal, rfl, value, _, rfl, rfl, rfl, rfl⟩
  refine ⟨⟨?_, hthis.not_fitsTable⟩, ⟨?_, rfl, hliteral.not_fitsTable⟩, ?_, ?_, rfl⟩
  · decide +kernel
  · decide +kernel
  · decide +kernel
  · decide +kernel

end Node

end TraceFront
