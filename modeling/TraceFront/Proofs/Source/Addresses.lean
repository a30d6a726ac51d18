import Mathlib.Data.List.Forall2
import TraceFront.Proofs.Source.Length
import TraceFront.Proofs.Tree.AddressText
import TraceFront.Proofs.Tree.Encoding
import TraceFront.Proofs.Tree.Positions
import TraceFront.Proofs.Tree.Rejection

/-!
# The addresses of a compiled source

The keys in the tree of a source are positions, names of fields, and names that definitions bind.  A
position is below the number of characters of the source, and the names of fields are legible.  The
name that a definition binds is an identifier.  So it is not empty and spells no position, but nothing
keeps a slash out of it.

* `Expr.TreeKey`             the keys that the tree of an expression can have;
* `Expr.node_keys`           it has no others;
* `Expr.legible_node_iff`    all keys are legible exactly if no definition binds a name with a slash.
-/

namespace TraceFront

open Node Number

/-! ## the keys of a tree -/

/-- a position below `N`, the name of a field, or a name that a definition in `e` binds -/
inductive Expr.TreeKey (N : Nat) (e : Expr String) : Key → Prop
  | index {i : Nat} (h : i < N) : TreeKey N e (.index i)
  | field (f : Field) : TreeKey N e (.field f.text)
  | bound {n : String} {v : Expr String} {s : Span} (h : define (.name n) v s ∈ e.subterms) :
      TreeKey N e (.field n)

/-- all keys in the tree are such -/
def Expr.TreeKeys (N : Nat) (e : Expr String) (n : Node) : Prop :=
  n.All fun m => ∀ k ∈ m.childKeys, TreeKey N e k

section
variable {N : Nat} {e : Expr String}

theorem treeKeys_leaf (v : Value) : e.TreeKeys N (leaf v) :=
  .intro (List.forall_mem_nil _) (List.forall_mem_nil _)

theorem treeKeys_ofType {t : NodeType} {fields : List (Field × Node)}
    (h : ∀ f ∈ fields, e.TreeKeys N f.2) : e.TreeKeys N (t.keyed fields) := by
  refine .ofType ?_ h
  rw [NodeType.keyed, childKeys_keyed, List.map_map]
  exact List.forall_mem_map.mpr fun f _ => .field f.1

theorem treeKeys_sequence {t : NodeType} {ns : List Node} (hlength : ns.length ≤ N)
    (h : ∀ n ∈ ns, e.TreeKeys N n) : e.TreeKeys N (t.sequence ns) := by
  refine .intro ?_ h
  refine List.forall_mem_map.mpr fun i hi => .index ?_
  exact Nat.lt_of_lt_of_le (List.mem_range.mp hi) hlength

theorem treeKeys_nameNode (n : String) : e.TreeKeys N (nameNode n) :=
  treeKeys_ofType (List.forall_mem_singleton.mpr (treeKeys_leaf _))

theorem treeKeys_literalNode (l : Literal String) : e.TreeKeys N (literalNode l) :=
  treeKeys_ofType (List.forall_mem_singleton.mpr (treeKeys_leaf _))

theorem treeKeys_bodyNode {ns : List Node} (hlength : ns.length ≤ N)
    (h : ∀ n ∈ ns, e.TreeKeys N n) : e.TreeKeys N (bodyNode ns) := by
  unfold bodyNode
  split
  · exact h _ List.mem_cons_self
  · exact treeKeys_sequence hlength h

/-! ## patterns -/

theorem Pattern.nodes_eq_map (ps : List (Pattern String)) :
    Pattern.nodes ps = ps.map Pattern.node := by
  induction ps with
  | nil => rfl
  | cons p ps ih => rw [Pattern.nodes, ih, List.map_cons]

theorem Pattern.node_keys {d : Datum String} (hd : d.Narrow N) {p : Pattern String}
    (h : Pattern.ofDatum d = .ok p) : e.TreeKeys N p.node := by
  induction d using Datum.childInduction generalizing p with
  | step d ih =>
    have tuple : ∀ {ds ps}, (∀ c ∈ ds, c ∈ d.items) → ds.length ≤ N → Pattern.ofDatums ds = .ok ps →
        e.TreeKeys N (Pattern.tuple ps).node := by
      intro ds ps hds hlength hps
      rw [Pattern.node, Pattern.nodes_eq_map]
      rw [Pattern.ofDatums_eq_mapM] at hps
      refine treeKeys_sequence ?_ (List.forall_mem_map.mpr fun q hq => ?_)
      · rw [List.length_map, length_of_mapM hps]
        exact hlength
      · obtain ⟨c, hc, hcq⟩ := exists_of_mem_mapM hps hq
        exact ih c (hds c hc) (hd.item (hds c hc)) hcq
    have hself := hd.self
    cases Pattern.spelled_of_ofDatum h with
    | wildcard s => exact treeKeys_nameNode _
    | name s _ => exact treeKeys_nameNode _
    | vector s hps => exact tuple (fun c hc => hc) hself hps
    | tuple s _ hps =>
      exact tuple (fun c hc => List.mem_cons_of_mem _ hc) (Nat.le_of_succ_le hself) hps

/-! ## expressions -/

namespace Expr

theorem TreeKeys.of_child {c : Expr String} (hc : c ∈ e.children) {n : Node} (h : c.TreeKeys N n) :
    e.TreeKeys N n := by
  refine h.mono fun m hm k hk => ?_
  cases hm k hk with
  | index hi => exact .index hi
  | field f => exact .field f
  | bound hb => exact .bound (mem_subterms.mpr (.inr ⟨c, hc, hb⟩))

end Expr

end

namespace Expr

variable {N : Nat}

/-- the value of a definition stands under the name that it binds, or under `definiens` -/
theorem treeKey_valueField (p : Pattern String) (v : Expr String) (s : Span) :
    TreeKey N (define p v s) (.field p.valueField) := by
  cases p with
  | name n => exact .bound (mem_subterms_self _)
  | wildcard => exact .field .definiens
  | tuple ps => exact .field .definiens

theorem node_keys {d : Datum String} (hd : d.Narrow N) {e : Expr String} (h : ofDatum d = .ok e) :
    e.TreeKeys N e.node := by
  induction d using Datum.childInduction generalizing e with
  | step d ih =>
    have part : ∀ {c f}, c ∈ d.items → f ∈ e.children → ofDatum c = .ok f → e.TreeKeys N f.node :=
      fun hc hf hcf => TreeKeys.of_child hf (ih _ hc (hd.item hc) hcf)
    have parts : ∀ {ds es}, (∀ c ∈ ds, c ∈ d.items) → (∀ f ∈ es, f ∈ e.children) →
        ofDatums ds = .ok es → ∀ n ∈ nodes es, e.TreeKeys N n := by
      intro ds es hds hes hrecognized
      rw [nodes_eq_map]
      refine List.forall_mem_map.mpr fun f hf => ?_
      obtain ⟨c, hc, hcf⟩ := exists_of_mem_ofDatums hrecognized hf
      exact part (hds c hc) (hes f hf) hcf
    have count : ∀ {ds es}, ofDatums ds = .ok es → (nodes es).length = ds.length := by
      intro ds es hrecognized
      rw [ofDatums_eq_mapM] at hrecognized
      rw [length_nodes, length_of_mapM hrecognized]
    have hself := hd.self
    cases spelled_of_ofDatum h with
    | literal l s => exact treeKeys_literalNode l
    | self s => exact treeKeys_ofType (List.forall_mem_nil _)
    | var s _ => exact treeKeys_nameNode _
    | apply s _ hhead hds =>
      refine treeKeys_sequence ?_ (List.forall_mem_cons.mpr ⟨?_, ?_⟩)
      · rw [List.length_cons, count hds]
        exact hself
      · exact part List.mem_cons_self List.mem_cons_self hhead
      · exact parts (fun c hc => List.mem_cons_of_mem _ hc)
          (fun f hf => List.mem_cons_of_mem _ hf) hds
    | program s _ hp hbody =>
      refine treeKeys_ofType (List.forall_mem_cons.mpr ⟨?_, List.forall_mem_singleton.mpr ?_⟩)
      · exact Pattern.node_keys (hd.item (by simp [Datum.items])) hp
      · refine treeKeys_bodyNode ?_ (parts ?_ (fun f hf => hf) hbody)
        · rw [count hbody]
          exact Nat.le_of_succ_le (Nat.le_of_succ_le hself)
        · exact fun c hc => List.mem_cons_of_mem _ (List.mem_cons_of_mem _ hc)
    | ifThen s _ hp ht =>
      refine treeKeys_ofType (List.forall_mem_cons.mpr ⟨?_, List.forall_mem_cons.mpr
        ⟨?_, List.forall_mem_singleton.mpr (treeKeys_literalNode .nil)⟩⟩)
      · exact part (by simp [Datum.items]) (by simp [children]) hp
      · exact part (by simp [Datum.items]) (by simp [children]) ht
    | ifThenElse s _ hp ht he =>
      refine treeKeys_ofType (List.forall_mem_cons.mpr ⟨?_, List.forall_mem_cons.mpr
        ⟨?_, List.forall_mem_singleton.mpr ?_⟩⟩)
      · exact part (by simp [Datum.items]) (by simp [children]) hp
      · exact part (by simp [Datum.items]) (by simp [children]) ht
      · exact part (by simp [Datum.items]) (by simp [children]) he
    | block s _ hstmts =>
      refine treeKeys_sequence ?_ (parts ?_ (fun f hf => hf) hstmts)
      · rw [count hstmts]
        exact Nat.le_of_succ_le hself
      · exact fun c hc => List.mem_cons_of_mem _ hc
    | define s _ hp hv =>
      refine .keyed ?_ (List.forall_mem_cons.mpr ⟨?_, List.forall_mem_singleton.mpr ?_⟩)
      · rw [childKeys_keyed]
        exact List.forall_mem_cons.mpr ⟨.field .pattern,
          List.forall_mem_singleton.mpr (treeKey_valueField _ _ _)⟩
      · exact Pattern.node_keys (hd.item (by simp [Datum.items])) hp
      · exact part (by simp [Datum.items]) (by simp [children]) hv
    | withAddress s _ ht he =>
      refine treeKeys_ofType (List.forall_mem_cons.mpr ⟨?_, List.forall_mem_singleton.mpr ?_⟩)
      · exact part (by simp [Datum.items]) (by simp [children]) ht
      · exact part (by simp [Datum.items]) (by simp [children]) he
    | tuple s _ hes =>
      refine treeKeys_sequence ?_ (parts ?_ (fun f hf => hf) hes)
      · rw [count hes]
        exact Nat.le_of_succ_le hself
      · exact fun c hc => List.mem_cons_of_mem _ hc
    | this s _ => exact treeKeys_ofType (List.forall_mem_nil _)
    | splice s _ he =>
      refine treeKeys_ofType (List.forall_mem_singleton.mpr ?_)
      exact part (by simp [Datum.items]) (by simp [children]) he
    | unquote s _ he =>
      refine treeKeys_ofType (List.forall_mem_singleton.mpr ?_)
      exact part (by simp [Datum.items]) (by simp [children]) he

/-- the tree of a subterm is a part of the tree -/
theorem node_mem_subtrees {c e : Expr String} (hfree : e.collisions = []) (h : c ∈ e.subterms) :
    c.node ∈ e.node.subtrees := by
  obtain ⟨ks, rfl⟩ := Context.mem_subterms_iff.mp h
  have hfollow : (ks.fill c).node.follow (Context.keys ks) = some c.node := by
    rw [Context.node_fill]
    exact (Context.slot hfree).follow c.node
  exact List.mem_map.mpr ⟨_, mem_walk_of_follow hfollow, rfl⟩

end Expr

/-! ## legible keys -/

theorem legible_fieldText (f : Field) : Key.Legible (.field f.text) := by
  refine ⟨f.text_ne_empty, ?_, ?_⟩
  · cases f <;> decide
  · cases f <;> rfl

/-- a text that is a position starts like a number -/
theorem startsNumber_of_readIndex? {cs : List Char} {i : Nat} (h : readIndex? cs = some i) :
    startsNumber cs = true := by
  have digit : ∀ {ds : List Char} {n : Nat}, readNat? ds = some n →
      ∃ d ds', ds = d :: ds' ∧ d.isDigit = true := by
    intro ds n hread
    obtain ⟨hne, hall, _⟩ := readNat?_eq_some_iff.mp hread
    obtain ⟨d, ds', rfl⟩ := List.exists_cons_of_ne_nil hne
    exact ⟨d, ds', rfl, List.all_eq_true.mp hall d List.mem_cons_self⟩
  unfold readIndex? at h
  split at h
  · rename_i n hread
    cases cs with
    | nil => cases hread
    | cons c cs =>
      split at hread
      · rename_i hplus
        cases hplus
        obtain ⟨d, ds, hds, hd⟩ := digit hread
        have hcs : cs = d :: ds := hds
        rw [hcs]
        simp [startsNumber, hd]
      · obtain ⟨d, ds, hds, hd⟩ := digit hread
        cases hds
        exact startsNumber_digit hd _
  · cases h

theorem legible_identifier_iff {n : String} (h : Identifier n) :
    Key.Legible (.field n) ↔ '/' ∉ n.toList := by
  constructor
  · exact fun hlegible => hlegible.2.1
  · intro hslash
    refine ⟨h.ne_empty, hslash, ?_⟩
    cases hread : readIndex? n.toList with
    | none => rfl
    | some i =>
      have hnumber := startsNumber_of_readIndex? hread
      rw [h.text.not_number] at hnumber
      cases hnumber

namespace Expr

/-- the tree of an expression has legible addresses exactly if its definitions bind no name with a
slash -/
theorem legible_node_iff {N : Nat} (hN : N ≤ maxIndex + 1) {d : Datum String} (hd : d.Narrow N)
    {e : Expr String}
    (he : ofDatum d = .ok e) (hn : ∀ n ∈ e.identifiers, Identifier n) (hfree : e.collisions = []) :
    e.node.LegibleAddresses ↔
      ∀ n v s, define (.name n) v s ∈ e.subterms → '/' ∉ n.toList := by
  have hconform := node_all_conform (fun n hmem => (hn n hmem).ne_empty) hfree
  have hdistinct : e.node.All DistinctFields :=
    hconform.mono fun m hm => distinctFields_of_isWellFormed hm.wellFormed
  rw [legibleAddresses_iff hdistinct]
  constructor
  · intro h n v s hdefine
    have hnode := all_iff_subtrees.mp h _ (node_mem_subtrees hfree hdefine)
    have hkey : Key.field n ∈ (define (.name n) v s).node.childKeys :=
      List.mem_cons_of_mem _ List.mem_cons_self
    exact (hnode _ hkey).2.1
  · intro h
    -- positions are small and field names are fixed, so only the bound names can fail
    refine (node_keys hd he).mono fun m hm k hk => ?_
    cases hm k hk with
    | index hi => exact Nat.le_of_lt_succ (Nat.lt_of_lt_of_le hi hN)
    | field f => exact legible_fieldText f
    | bound hb =>
      have hidentifier := hn _ (identifiers_of_mem_subterms hb List.mem_cons_self)
      exact (legible_identifier_iff hidentifier).mpr (h _ _ _ hb)

end Expr

/-! ## compiled sources -/

section
variable [ContentHash]

theorem compile_eq_ok {o : Options} {source : String} {fs : List (Form String Namespace)}
    (h : compile o source = .ok fs) :
    ∃ es, parse source = .ok es ∧ Form.ofExprs o es = (fs, none) := by
  unfold compile at h
  split at h
  · cases h
  · rename_i es hparse
    split at h
    · rename_i hforms
      cases h
      exact ⟨es, hparse, hforms⟩
    · cases h

theorem tree_of_ofExpr {o : Options} {e : Expr String} {f : Form String Namespace}
    (h : Form.ofExpr o e = .ok f) : e.treeWith o.test = .ok f.tree := by
  unfold Form.ofExpr at h
  split at h
  · rename_i tree htree
    cases h
    exact htree
  · cases h

/-- what holds of an expression and its compiled form holds along the expressions of a source -/
theorem forall₂_of_ofExprs {o : Options} {R : Expr String → Form String Namespace → Prop}
    {es : List (Expr String)} {fs : List (Form String Namespace)} (h : Form.ofExprs o es = (fs, none))
    (step : ∀ e ∈ es, ∀ f, Form.ofExpr o e = .ok f → R e f) : List.Forall₂ R es fs := by
  induction es generalizing fs with
  | nil =>
    cases h
    exact .nil
  | cons e es ih =>
    obtain ⟨hfirst, hrest⟩ := List.forall_mem_cons.mp step
    rw [Form.ofExprs] at h
    split at h
    · rename_i f hf
      cases hgs : Form.ofExprs o es with
      | mk gs err =>
        rw [hgs] at h
        cases h
        exact .cons (hfirst f hf) (ih hgs hrest)
    · cases h

/-- **Printed addresses are unambiguous without slashes in names.**  The addresses of a compiled form
can be read from their texts, lead to their nodes and differ in their texts exactly if no definition in
the form binds a name with a slash. -/
theorem compile_addresses_legible_iff {o : Options} {source : String} (hs : Short source)
    {fs : List (Form String Namespace)} (h : compile o source = .ok fs) :
    ∃ es, parse source = .ok es ∧
      List.Forall₂ (fun e f => f.tree.LegibleAddresses ↔
        ∀ n v s, Expr.define (.name n) v s ∈ e.subterms → '/' ∉ n.toList) es fs := by
  obtain ⟨es, hparse, hforms⟩ := compile_eq_ok h
  obtain ⟨ds, hread, hrecognized⟩ := parse_eq_ok hparse
  refine ⟨es, hparse, ?_⟩
  have hN : source.toList.length ≤ maxIndex + 1 := by
    have hlength := Text.length_le_utf8ByteSize source
    have hsize : source.utf8ByteSize < 18446744073709551616 := hs
    unfold maxIndex
    omega
  refine forall₂_of_ofExprs hforms fun e he f hf => ?_
  obtain ⟨d, hd, hde⟩ := Expr.exists_of_mem_ofDatums hrecognized he
  have hn : ∀ n ∈ e.identifiers, Identifier n :=
    identifiers_of_mem_parse hparse (Expr.mem_subtermsAll.mpr ⟨e, he, e.mem_subterms_self⟩)
  obtain ⟨hfree, htree, _⟩ := e.judged.of_ok (tree_of_ofExpr hf)
  rw [htree]
  exact Expr.legible_node_iff hN (read_narrow hread d hd) hde hn hfree

end

/-- names without slashes, one of them in a second statement -/
theorem compile_addresses_legible_of_block :
    ∃ f, compile .default "(block (define a-b x) a-b)" = .ok [f] ∧ Short "(block (define a-b x) a-b)" ∧
      f.tree.LegibleAddresses := by
  let v := Expr.var "x" ⟨19, 20⟩
  let e := Expr.block [.define (.name "a-b") v ⟨7, 21⟩, .var "a-b" ⟨22, 25⟩] ⟨0, 26⟩
  have hread : read "(block (define a-b x) a-b)" = .ok
      [.list [.symbol "block" ⟨1, 6⟩, .list [.symbol "define" ⟨8, 14⟩, .symbol "a-b" ⟨15, 18⟩,
        .symbol "x" ⟨19, 20⟩] ⟨7, 21⟩, .symbol "a-b" ⟨22, 25⟩] ⟨0, 26⟩] := by decide +kernel
  have hparse : parse "(block (define a-b x) a-b)" = .ok [e] := parse_of_read hread rfl
  have hshort : Short "(block (define a-b x) a-b)" := by decide
  have hcompile : compile .default "(block (define a-b x) a-b)" =
      .ok [⟨e.node, e.core, none, e.warnings⟩] := by
    rw [compile, hparse]
    rfl
  obtain ⟨es, hes, hforms⟩ := compile_addresses_legible_iff hshort hcompile
  cases Except.ok.inj (hparse.symm.trans hes)
  refine ⟨_, hcompile, hshort, (List.forall₂_cons.mp hforms).1.mpr ?_⟩
  intro n w s hdefine
  have hsubterms : e.subterms = [e, .define (.name "a-b") v ⟨7, 21⟩, v, .var "a-b" ⟨22, 25⟩] := rfl
  rw [hsubterms] at hdefine
  simp only [List.mem_cons, List.not_mem_nil, or_false, e, v, Expr.define.injEq, Pattern.name.injEq,
    reduceCtorEq, false_or] at hdefine
  rw [hdefine.1]
  decide

/-- a name with a slash: its address is read as that of two steps, where nothing is; and it can look
like the way to another node -/
theorem compile_addresses_illegible_of_slash :
    (∃ f, compile .default "(define a/b x)" = .ok [f] ∧
      (⟨[.field "a/b"]⟩, nameNode "x") ∈ f.tree.walk ∧
      Address.ofText (Address.render ⟨[.field "a/b"]⟩) = ⟨[.field "a", .field "b"]⟩ ∧
      f.tree.get? (Address.ofText (Address.render ⟨[.field "a/b"]⟩)) = none) ∧
    ∃ f, compile .default "(define pattern/name x)" = .ok [f] ∧
      (⟨[.field "pattern", .field "name"]⟩, .leaf (.symbol "pattern/name")) ∈ f.tree.walk ∧
      (⟨[.field "pattern/name"]⟩, nameNode "x") ∈ f.tree.walk ∧
      Address.render ⟨[.field "pattern", .field "name"]⟩ =
        Address.render ⟨[.field "pattern/name"]⟩ := by
  let e := Expr.define (.name "a/b") (.var "x" ⟨12, 13⟩) ⟨0, 14⟩
  let g := Expr.define (.name "pattern/name") (.var "x" ⟨21, 22⟩) ⟨0, 23⟩
  have hread : read "(define a/b x)" = .ok [.list [.symbol "define" ⟨1, 7⟩, .symbol "a/b" ⟨8, 11⟩,
      .symbol "x" ⟨12, 13⟩] ⟨0, 14⟩] := by decide +kernel
  have hread' : read "(define pattern/name x)" = .ok [.list [.symbol "define" ⟨1, 7⟩,
      .symbol "pattern/name" ⟨8, 20⟩, .symbol "x" ⟨21, 22⟩] ⟨0, 23⟩] := by decide +kernel
  have hcompile : compile .default "(define a/b x)" = .ok [⟨e.node, e.core, none, e.warnings⟩] := by
    rw [compile, parse, hread]
    rfl
  have hcompile' : compile .default "(define pattern/name x)" =
      .ok [⟨g.node, g.core, none, g.warnings⟩] := by
    rw [compile, parse, hread']
    rfl
  refine ⟨⟨_, hcompile, mem_walk_of_follow rfl, by decide, by decide⟩, _, hcompile',
    mem_walk_of_follow rfl, mem_walk_of_follow rfl, ?_⟩
  decide

end TraceFront
