import Mathlib.Data.List.Induction
import TraceFront.Proofs.Tree.AddressText
import TraceFront.Proofs.Tree.ValueText

/-!
# Dumps of trees

A dump has one line for each node, a parent before its children.  The indentation of a line is the
depth of its node, so that the lines below a node are those that follow with more indentation.  Labels
and headlines are told apart by the last blank of a line, except in the line of a leaf: there the label
is known from the type of the node above.

* `Plain`                    trees of typed nodes that hold a value, fields or a sequence, in which no
                             name and no value breaks its line;
* `rows`                     depth and text of each line;
* `Stops`                    what follows the lines of a tree is not deeper;
* `Determined`               the lines of a tree tell the tree and where they end;
* `Plain.determined`         those of every plain tree do;
* `rows_of_render`           the lines of a plain tree can be read off its dump;
* `Plain.render_injective`   and so its dump tells the tree.
-/

namespace TraceFront

namespace Node

/-! ## plain trees -/

/-- a typed node holds a value in a leaf, or plain trees in fields or in a sequence; what the dump
shows of it does not break its line -/
inductive Plain : Node → Prop
  | value {t : NodeType} {f : Field} {v : Value} (holds : Holds t f v) :
      Plain (t.keyed [(f, leaf v)])
  | fields {t : NodeType} {fs : List (String × Node)} (hl : t ≠ .literal) (hr : t ≠ .reference)
      (hs : t.isSequence = false) (names : ∀ f ∈ fs, InLine f.1.toList)
      (parts : ∀ f ∈ fs, Plain f.2) : Plain (keyed t.tag fs)
  | sequence {t : NodeType} {ns : List Node} (hs : t.isSequence = true)
      (parts : ∀ n ∈ ns, Plain n) : Plain (t.sequence ns)

namespace Plain

variable {n : Node} {t : NodeType}

theorem exists_type (h : n.Plain) : ∃ t : NodeType, n.tag = some t.tag ∧ n.value = none := by
  cases h with
  | value _ | fields _ _ _ _ _ | sequence _ _ => exact ⟨_, rfl, rfl⟩

/-- what a plain node of a type holds -/
theorem cases_of_tag (h : n.Plain) (htag : n.tag = some t.tag) :
    (∃ f v, Holds t f v ∧ n = t.keyed [(f, leaf v)]) ∨
    (∃ fs : List (String × Node), t ≠ .literal ∧ t ≠ .reference ∧ t.isSequence = false ∧
      (∀ f ∈ fs, f.2.Plain) ∧ n = keyed t.tag fs) ∨
    ∃ ns : List Node, t.isSequence = true ∧ (∀ m ∈ ns, m.Plain) ∧ n = t.sequence ns := by
  have htype : ∀ {u : NodeType}, some u.tag = some t.tag → u = t :=
    fun h => NodeType.tag_injective (Option.some.inj h)
  cases h with
  | value holds =>
    obtain rfl := htype htag
    exact .inl ⟨_, _, holds, rfl⟩
  | fields hl hr hs _ parts =>
    obtain rfl := htype htag
    exact .inr (.inl ⟨_, hl, hr, hs, parts, rfl⟩)
  | sequence hs parts =>
    obtain rfl := htype htag
    exact .inr (.inr ⟨_, hs, parts, rfl⟩)

theorem value_of_tag (h : n.Plain) (htag : n.tag = some t.tag) {f : Field} {v : Value}
    (hv : Holds t f v) : ∃ g w, Holds t g w ∧ n = t.keyed [(g, leaf w)] := by
  rcases h.cases_of_tag htag with hvalue | ⟨_, hl, hr, _⟩ | ⟨_, hs, _⟩
  · exact hvalue
  · exact absurd hv (not_holds hl hr)
  · cases hv <;> cases hs

theorem fields_of_tag (h : n.Plain) (htag : n.tag = some t.tag) (hl : t ≠ .literal)
    (hr : t ≠ .reference) (hs : t.isSequence = false) :
    ∃ fs : List (String × Node), (∀ f ∈ fs, f.2.Plain) ∧ n = keyed t.tag fs := by
  rcases h.cases_of_tag htag with ⟨f, v, hv, _⟩ | ⟨fs, _, _, _, hfields⟩ | ⟨_, hs', _⟩
  · exact absurd hv (not_holds hl hr)
  · exact ⟨fs, hfields⟩
  · cases hs.symm.trans hs'

theorem sequence_of_tag (h : n.Plain) (htag : n.tag = some t.tag) (hs : t.isSequence = true) :
    ∃ ns : List Node, (∀ m ∈ ns, m.Plain) ∧ n = t.sequence ns := by
  rcases h.cases_of_tag htag with ⟨f, v, hv, _⟩ | ⟨_, _, _, hs', _⟩ | ⟨ns, _, hitems⟩
  · cases hv <;> cases hs
  · cases hs.symm.trans hs'
  · exact ⟨ns, hitems⟩

end Plain

/-! ## lines -/

/-- the text before the headline of the node at an address -/
def label (a : Address) : List Char :=
  match a.keys.getLast? with
  | some k => k.render.toList ++ [':', ' ']
  | none => []

theorem label_child (a : Address) (k : Key) :
    label (a.child k) = k.render.toList ++ [':', ' '] := by
  rw [label, child_keys, List.getLast?_concat]

theorem length_child (a : Address) (k : Key) : (a.child k).length = a.length + 1 := by
  rw [Address.length, child_keys, List.length_append]
  rfl

/-- depth and text of the line of a node -/
def row (e : Address × Node) : Nat × List Char := (e.1.length, label e.1 ++ e.2.headline.toList)

/-- depths and texts of the lines of a tree at an address -/
def rows (a : Address) (n : Node) : List (Nat × List Char) := (n.visit a).map row

theorem rows_eq (a : Address) (n : Node) :
    n.rows a = row (a, n) :: (n.entries a).flatMap fun e => e.2.rows e.1 := by
  rw [rows, visit_eq, List.map_cons, List.map_flatMap]
  rfl

/-- the line with this depth and text -/
def indented (r : Nat × List Char) : List Char := List.replicate (2 * r.1) ' ' ++ r.2

theorem toList_line (a : Address) (n : Node) : (line a n).toList = indented (row (a, n)) := by
  rw [line, indented, row, label]
  cases a.keys.getLast? with
  | none => simp [Text.repeated]
  | some k => simp [Text.repeated]

theorem toList_render (n : Node) :
    n.render.toList = ['\n'].intercalate ((n.rows .root).map indented) := by
  rw [render, String.toList_intercalate, rows, walk_eq_visit, List.map_map, List.map_map]
  exact congrArg _ (List.map_congr_left fun e _ => toList_line e.1 e.2)

/-! ## where the lines of a tree end -/

/-- the next line, if there is one, is not deeper than `d` -/
def Stops (d : Nat) (rs : List (Nat × List Char)) : Prop := ∀ r ∈ rs.head?, r.1 ≤ d

/-- the lines of the tree tell its label, the tree and where they end -/
def Determined (n : Node) : Prop :=
  ∀ m : Node, m.Plain → ∀ a b : Address, a.length = b.length → ∀ x y, Stops a.length x →
    Stops a.length y → n.rows a ++ x = m.rows b ++ y → label a = label b ∧ n = m ∧ x = y

theorem stops_flatMap {d : Nat} {es : List (Address × Node)} (hes : ∀ e ∈ es, e.1.length = d + 1)
    {x : List (Nat × List Char)} (hx : Stops d x) :
    Stops (d + 1) ((es.flatMap fun e => e.2.rows e.1) ++ x) := by
  cases es with
  | nil => exact fun r hr => Nat.le_succ_of_le (hx r hr)
  | cons e es =>
    intro r hr
    rw [List.flatMap_cons, rows_eq] at hr
    cases hr
    exact Nat.le_of_eq (hes e List.mem_cons_self)

/-- the lines below a node tell labels and trees of its parts -/
theorem flatMap_rows_inj {d : Nat} {es fs : List (Address × Node)}
    (hes : ∀ e ∈ es, e.1.length = d + 1 ∧ e.2.Determined)
    (hfs : ∀ f ∈ fs, f.1.length = d + 1 ∧ f.2.Plain) {x y : List (Nat × List Char)}
    (hx : Stops d x) (hy : Stops d y)
    (h : (es.flatMap fun e => e.2.rows e.1) ++ x = (fs.flatMap fun f => f.2.rows f.1) ++ y) :
    es.map (fun e => (label e.1, e.2)) = fs.map (fun f => (label f.1, f.2)) ∧ x = y := by
  -- the first line below is deeper than all that can follow the tree
  have deeper : ∀ {e : Address × Node} {rs x : List (Nat × List Char)}, e.1.length = d + 1 →
      Stops d x → x ≠ row e :: rs := by
    rintro e rs x he hx rfl
    have hle : e.1.length ≤ d := hx _ rfl
    omega
  induction es generalizing fs with
  | nil =>
    cases fs with
    | nil => exact ⟨rfl, h⟩
    | cons f fs =>
      rw [List.flatMap_cons, rows_eq] at h
      exact absurd h (deeper (hfs f List.mem_cons_self).1 hx)
  | cons e es ih =>
    cases fs with
    | nil =>
      rw [List.flatMap_cons, rows_eq] at h
      exact absurd h.symm (deeper (hes e List.mem_cons_self).1 hy)
    | cons f fs =>
      obtain ⟨⟨he, hdet⟩, hes'⟩ := List.forall_mem_cons.mp hes
      obtain ⟨⟨hf, hplain⟩, hfs'⟩ := List.forall_mem_cons.mp hfs
      rw [List.flatMap_cons, List.flatMap_cons, List.append_assoc, List.append_assoc] at h
      have hrest := stops_flatMap (fun e he => (hes' e he).1) hx
      have hrest' := stops_flatMap (fun f hf => (hfs' f hf).1) hy
      rw [← he] at hrest hrest'
      obtain ⟨hlabel, hnode, htail⟩ := hdet f.2 hplain e.1 f.1 (he.trans hf.symm) _ _ hrest hrest' h
      obtain ⟨hmap, hxy⟩ := ih hes' hfs' htail
      rw [List.map_cons, List.map_cons, hmap, hlabel, hnode]
      exact ⟨rfl, hxy⟩

/-! ## the line of a node -/

theorem blank_not_mem_tag (t : NodeType) : ' ' ∉ t.tag.toList := by
  cases t <;> decide

/-- the label of a node ends with a blank, that of the root is empty -/
theorem label_cases (a : Address) :
    (a.length = 0 ∧ label a = []) ∨ ∃ cs, 0 < a.length ∧ label a = cs ++ [' '] := by
  obtain ⟨ks⟩ := a
  induction ks using List.reverseRecOn with
  | nil => exact .inl ⟨rfl, rfl⟩
  | append_singleton ks k _ =>
    have hchild : label ⟨ks ++ [k]⟩ = k.render.toList ++ [':', ' '] := label_child ⟨ks⟩ k
    have hlength := length_child ⟨ks⟩ k
    refine .inr ⟨k.render.toList ++ [':'], ?_, ?_⟩
    · show 0 < (Address.child ⟨ks⟩ k).length
      omega
    · rw [hchild, List.append_assoc]
      rfl

/-- label and tag are told apart by the last blank -/
theorem label_append_inj {a b : Address} (hab : a.length = b.length) {t u : NodeType}
    (h : label a ++ t.tag.toList = label b ++ u.tag.toList) : label a = label b ∧ t = u := by
  have htags : t.tag.toList = u.tag.toList → t = u :=
    fun heq => NodeType.tag_injective (String.toList_inj.mp heq)
  rcases label_cases a with ⟨ha, hla⟩ | ⟨cs, ha, hla⟩
  · rcases label_cases b with ⟨hb, hlb⟩ | ⟨ds, hb, hlb⟩
    · rw [hla, hlb] at h ⊢
      exact ⟨rfl, htags h⟩
    · omega
  · rcases label_cases b with ⟨hb, hlb⟩ | ⟨ds, hb, hlb⟩
    · omega
    · rw [hla, hlb] at h ⊢
      have hreverse := congrArg List.reverse h
      simp only [List.reverse_append, List.reverse_cons, List.reverse_nil, List.nil_append,
        List.cons_append] at hreverse
      obtain ⟨htag, hlabel⟩ := Text.append_sep_inj
        (fun hmem => blank_not_mem_tag t (List.mem_reverse.mp hmem))
        (fun hmem => blank_not_mem_tag u (List.mem_reverse.mp hmem)) hreverse
      rw [List.reverse_inj.mp hlabel]
      exact ⟨rfl, htags (List.reverse_inj.mp htag)⟩

theorem row_of_tag {n : Node} {t : NodeType} (ht : n.tag = some t.tag) (hv : n.value = none)
    (a : Address) : row (a, n) = (a.length, label a ++ t.tag.toList) := by
  rw [row, headline]
  simp only [ht, hv]

/-- the first line of a plain tree tells its label and its tag -/
theorem rows_inj {n m : Node} {t : NodeType} (ht : n.tag = some t.tag) (hv : n.value = none)
    (hm : m.Plain) {a b : Address} (hab : a.length = b.length) {x y : List (Nat × List Char)}
    (h : n.rows a ++ x = m.rows b ++ y) :
    label a = label b ∧ m.tag = some t.tag ∧
      ((n.entries a).flatMap fun e => e.2.rows e.1) ++ x =
        ((m.entries b).flatMap fun e => e.2.rows e.1) ++ y := by
  obtain ⟨u, hu, hmv⟩ := hm.exists_type
  rw [rows_eq, rows_eq, row_of_tag ht hv, row_of_tag hu hmv] at h
  obtain ⟨hrow, hrest⟩ := List.cons.inj h
  obtain ⟨hlabel, rfl⟩ := label_append_inj hab (Prod.mk.inj hrow).2
  exact ⟨hlabel, hu, hrest⟩

/-! ## the lines of a tree -/

theorem flatMap_rows_value (t : NodeType) (f : Field) (v : Value) (a : Address) :
    ((t.keyed [(f, leaf v)]).entries a).flatMap (fun e => e.2.rows e.1) =
      [(a.length + 1, f.text.toList ++ [':', ' '] ++ v.render.toList)] := by
  show [row (a.child (.field f.text), leaf v)] = _
  rw [row, label_child, length_child]
  rfl

theorem entries_keyed (tag : String) (fs : List (String × Node)) (a : Address) :
    (Node.keyed tag fs).entries a = fs.map fun f => (a.child (.field f.1), f.2) := by
  cases fs <;> rfl

theorem map_snd_itemEntries (a : Address) (i : Nat) (ns : List Node) :
    (itemEntries a i ns).map (·.2) = ns := by
  induction ns generalizing i with
  | nil => rfl
  | cons n ns ih => rw [itemEntries, List.map_cons, ih]

theorem field_labels_injective : Function.Injective fun f : String × Node =>
    ((Key.field f.1).render.toList ++ [':', ' '], f.2) := by
  intro f g h
  obtain ⟨hlabel, hnode⟩ := Prod.mk.inj h
  exact Prod.ext (String.toList_inj.mp (List.append_cancel_right hlabel)) hnode

/-- by induction on the plain tree: its first line tells the type, and the lines below are those of a
value or, by induction, tell the parts -/
theorem Plain.determined {n : Node} (hn : n.Plain) : n.Determined := by
  induction hn with
  | @value t f v hv =>
    intro m hm a b hab x y _ _ h
    obtain ⟨hlabel, htag, hbelow⟩ := rows_inj rfl rfl hm hab h
    obtain ⟨g, w, hw, rfl⟩ := hm.value_of_tag htag hv
    obtain rfl := hv.field_eq hw
    rw [flatMap_rows_value, flatMap_rows_value] at hbelow
    obtain ⟨hrow, hxy⟩ := List.cons.inj hbelow
    have hrender := List.append_cancel_left (Prod.mk.inj hrow).2
    obtain rfl := hv.render_injective hw (String.toList_inj.mp hrender)
    exact ⟨hlabel, rfl, hxy⟩
  | @fields t fs hl hr hs _ _ ih =>
    intro m hm a b hab x y hx hy h
    obtain ⟨hlabel, htag, hbelow⟩ := rows_inj rfl rfl hm hab h
    obtain ⟨gs, hgs, rfl⟩ := hm.fields_of_tag htag hl hr hs
    rw [entries_keyed, entries_keyed] at hbelow
    obtain ⟨hmap, hxy⟩ := flatMap_rows_inj
      (List.forall_mem_map.mpr fun f hf => ⟨length_child a _, ih f hf⟩)
      (List.forall_mem_map.mpr fun g hg => ⟨hab ▸ length_child b _, hgs g hg⟩) hx hy hbelow
    simp only [List.map_map, Function.comp_def, label_child] at hmap
    rw [List.map_injective_iff.mpr field_labels_injective hmap]
    exact ⟨hlabel, rfl, hxy⟩
  | @sequence t ns hs _ ih =>
    intro m hm a b hab x y hx hy h
    obtain ⟨hlabel, htag, hbelow⟩ := rows_inj rfl rfl hm hab h
    obtain ⟨ms, hms, rfl⟩ := hm.sequence_of_tag htag hs
    have hitems : ∀ {c : Address} {ks : List Node} {e}, e ∈ itemEntries c 0 ks →
        e.1.length = c.length + 1 := by
      rintro c ks ⟨d, k⟩ he
      obtain ⟨j, rfl, _⟩ := mem_itemEntries_iff.mp he
      exact length_child c _
    obtain ⟨hmap, hxy⟩ := flatMap_rows_inj
      (fun e he => ⟨hitems he, ih e.2 (mem_parts_of_mem_itemEntries he)⟩)
      (fun e he => ⟨hab ▸ hitems he, hms e.2 (mem_parts_of_mem_itemEntries he)⟩) hx hy hbelow
    have hnodes := congrArg (List.map (·.2)) hmap
    rw [List.map_map, List.map_map] at hnodes
    have hns : ns = ms := by
      rw [← map_snd_itemEntries a 0 ns, ← map_snd_itemEntries b 0 ms]
      exact hnodes
    rw [hns]
    exact ⟨hlabel, rfl, hxy⟩

/-! ## reading the lines off a dump -/

/-- depth and text of a line -/
def rowOfLine (cs : List Char) : Nat × List Char :=
  ((cs.takeWhile (· == ' ')).length / 2, cs.dropWhile (· == ' '))

theorem rowOfLine_indented {r : Nat × List Char} (h : InLine r.2) : rowOfLine (indented r) = r := by
  obtain ⟨d, cs⟩ := r
  have hblank : ∀ c ∈ List.replicate (2 * d) ' ', (c == ' ') = true :=
    fun c hc => beq_iff_eq.mpr (List.eq_of_mem_replicate hc)
  have htext : cs.takeWhile (· == ' ') = [] ∧ cs.dropWhile (· == ' ') = cs := by
    cases cs with
    | nil => exact ⟨rfl, rfl⟩
    | cons c cs =>
      have hc : ¬(c == ' ') = true := fun heq => h.head (congrArg some (beq_iff_eq.mp heq))
      exact ⟨List.takeWhile_cons_of_neg hc, List.dropWhile_cons_of_neg hc⟩
  rw [rowOfLine, indented, List.takeWhile_append_of_pos hblank, List.dropWhile_append_of_pos hblank,
    htext.1, htext.2, List.append_nil, List.length_replicate, Nat.mul_div_cancel_left _ (by decide)]

theorem inLine_label {a : Address} (h : ∀ k ∈ a.keys, InLine k.render.toList) :
    InLine (label a) := by
  unfold label
  split
  · rename_i k hk
    exact (h k (List.mem_of_getLast? hk)).append ⟨by decide, by decide⟩
  · exact ⟨nofun, List.not_mem_nil⟩

theorem inLine_tag (t : NodeType) : InLine t.tag.toList := by
  cases t <;> exact ⟨by decide, by decide⟩

theorem inLine_fieldText (f : Field) : InLine f.text.toList := by
  cases f <;> exact ⟨by decide, by decide⟩

theorem inLine_index (i : Nat) : InLine (Key.index i).render.toList :=
  inLine_of_atomChars fun _ hc => isAtomChar_of_isDigit (Number.isDigit_of_mem_repr hc)

/-- headline of a node and keys of its children can stand in their lines -/
def FitsLines (n : Node) : Prop :=
  InLine n.headline.toList ∧ ∀ k ∈ n.childKeys, InLine k.render.toList

theorem Plain.fitsLines {n : Node} (h : n.Plain) : n.All FitsLines := by
  induction h with
  | @value t f v hv =>
    have hleaf : (leaf v).All FitsLines :=
      .intro ⟨hv.inLine_render, List.forall_mem_nil _⟩ (List.forall_mem_nil _)
    refine .ofType ⟨inLine_tag t, ?_⟩ (List.forall_mem_singleton.mpr hleaf)
    exact List.forall_mem_singleton.mpr (inLine_fieldText f)
  | @fields t fs _ _ _ names _ ih =>
    refine .keyed ⟨inLine_tag t, ?_⟩ ih
    rw [childKeys_keyed]
    exact List.forall_mem_map.mpr names
  | @sequence t ns _ _ ih =>
    exact .intro ⟨inLine_tag t, List.forall_mem_map.mpr fun i _ => inLine_index i⟩ ih

theorem Plain.inLine_rows {n : Node} (h : n.Plain) : ∀ r ∈ n.rows .root, InLine r.2 := by
  rw [rows, ← walk_eq_visit]
  refine List.forall_mem_map.mpr fun e he => ?_
  have hkeys := forall_keys_walk.mpr (h.fitsLines.mono fun _ hm => hm.2)
  exact (inLine_label (hkeys e he)).append (h.fitsLines.forall_mem_walk e he).1

theorem rows_of_render {n : Node} (h : n.Plain) :
    (n.render.toList.splitOn '\n').map rowOfLine = n.rows .root := by
  have hline : ∀ r ∈ n.rows .root, '\n' ∉ indented r := by
    intro r hr hmem
    rcases List.mem_append.mp hmem with hmem | hmem
    · cases List.eq_of_mem_replicate hmem
    · exact (h.inLine_rows r hr).newline hmem
  have hne : (n.rows .root).map indented ≠ [] := by
    rw [rows_eq]
    exact List.cons_ne_nil _ _
  rw [toList_render, List.splitOn_intercalate '\n' (List.forall_mem_map.mpr hline) hne, List.map_map]
  exact (List.map_congr_left fun r hr => rowOfLine_indented (h.inLine_rows r hr)).trans (List.map_id _)

/-- the dump of a plain tree tells the tree -/
theorem Plain.render_injective {n m : Node} (hn : n.Plain) (hm : m.Plain)
    (h : n.render = m.render) : n = m := by
  have hrows : n.rows .root ++ [] = m.rows .root ++ [] := by
    rw [← rows_of_render hn, ← rows_of_render hm, h]
  have hstops : Stops Address.root.length [] := nofun
  exact (hn.determined m hm .root .root rfl [] [] hstops hstops hrows).2.1

end Node

end TraceFront
