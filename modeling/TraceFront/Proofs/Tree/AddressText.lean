import TraceFront.Proofs.Number.Integer
import TraceFront.Proofs.Tree.Walk
import TraceFront.Tree.Address

/-!
# Addresses and their texts

The text of an address is cut at its slashes when it is read.  An address comes back exactly if each
of its keys is one that a segment can spell.

* `Key.Legible`                     a segment can spell the key;
* `Address.ofText_render_iff`       the addresses that can be read from their texts;
* `Address.reads_back_iff`          the same by the names in the address alone;
* `Node.childKeys`                  the keys below a node;
* `Node.LegibleAddresses`           every node of a tree can be found by the text of its address, and by
                                    no other text;
* `Node.legibleAddresses_iff`       this is so exactly if all keys of the tree are legible.
-/

namespace TraceFront

open Number

/-! ## segments -/

namespace Text

theorem segments_eq_splitOn (sep : Char) (cs : List Char) : segments sep cs = cs.splitOn sep := by
  induction cs with
  | nil => rfl
  | cons c cs ih =>
    rw [segments, ih, List.splitOn_eq_splitOnP, List.splitOn_eq_splitOnP,
      List.splitOnP_cons_eq_if_modifyHead]
    by_cases hc : c = sep
    · rw [if_pos hc, if_pos (beq_iff_eq.mpr hc)]
    · rw [if_neg hc, if_neg (fun h => hc (beq_iff_eq.mp h))]
      obtain ⟨part, parts, hparts⟩ := List.exists_cons_of_ne_nil (List.splitOnP_ne_nil (· == sep) cs)
      rw [hparts]
      rfl

theorem not_mem_of_mem_segments {sep : Char} {cs part : List Char} (h : part ∈ segments sep cs) :
    sep ∉ part := by
  induction cs generalizing part with
  | nil =>
    rw [List.mem_singleton.mp h]
    exact List.not_mem_nil
  | cons c cs ih =>
    rw [segments] at h
    split at h
    · rcases List.mem_cons.mp h with rfl | h
      · exact List.not_mem_nil
      · exact ih h
    · rename_i hc
      split at h
      · rename_i first rest hcs
        rw [hcs] at ih
        rcases List.mem_cons.mp h with rfl | h
        · intro hsep
          rcases List.mem_cons.mp hsep with hsep | hsep
          · exact hc hsep.symm
          · exact ih List.mem_cons_self hsep
        · exact ih (List.mem_cons_of_mem _ h)
      · rename_i hnil
        have hlength := length_segments sep cs
        rw [hnil] at hlength
        cases hlength

end Text

/-! ## keys -/

namespace Key

/-- a segment of a text can spell the key -/
def Legible : Key → Prop
  | field n => n ≠ "" ∧ '/' ∉ n.toList ∧ readIndex? n.toList = none
  | index i => i ≤ maxIndex

theorem legible_field_iff {name : String} :
    (field name).Legible ↔ name ≠ "" ∧ '/' ∉ name.toList ∧ ∀ i, ¬IndexText name.toList i := by
  have hread : readIndex? name.toList = none ↔ ∀ i, ¬IndexText name.toList i := by
    simp only [← readIndex?_eq_some_iff, Option.eq_none_iff_forall_ne_some]
  rw [← hread]
  rfl

theorem slash_not_mem_render {k : Key} (h : k.Legible) : '/' ∉ k.render.toList := by
  cases k with
  | field n => exact h.2.1
  | index i =>
    intro hslash
    cases isDigit_of_mem_repr hslash

theorem toList_render_ne_nil {k : Key} (h : k.Legible) : k.render.toList ≠ [] := by
  cases k with
  | field n => exact fun hnil => h.1 (String.toList_eq_nil_iff.mp hnil)
  | index i =>
    obtain ⟨c, cs, hcs, -⟩ := exists_toList_repr i
    show i.repr.toList ≠ []
    rw [hcs]
    exact List.cons_ne_nil _ _

theorem ofSegment_render {k : Key} (h : k.Legible) : ofSegment k.render.toList = k := by
  cases k with
  | field n =>
    show ofSegment n.toList = _
    rw [ofSegment, h.2.2]
    exact congrArg field String.ofList_toList
  | index i =>
    show ofSegment i.repr.toList = _
    rw [ofSegment, readIndex?_repr h]

theorem le_of_readIndex? {cs : List Char} {i : Nat} (h : readIndex? cs = some i) :
    i ≤ maxIndex := by
  unfold readIndex? at h
  split at h
  · split at h
    · rename_i hle
      cases h
      exact hle
    · cases h
  · cases h

/-- a segment spells only such keys -/
theorem legible_ofSegment {cs : List Char} (hne : cs ≠ []) (hslash : '/' ∉ cs) :
    (ofSegment cs).Legible := by
  unfold ofSegment
  split
  · rename_i i hi
    exact le_of_readIndex? hi
  · rename_i hnone
    refine ⟨?_, ?_, ?_⟩
    · intro hempty
      exact hne (by rw [← String.toList_ofList (l := cs), hempty]; rfl)
    · rwa [String.toList_ofList]
    · rwa [String.toList_ofList]

end Key

/-! ## addresses -/

namespace Address

theorem toList_render {a : Address} (h : a.keys ≠ []) :
    a.render.toList = ['/'].intercalate (a.keys.map (·.render.toList)) := by
  have hroot : ¬a.isRoot = true := by rwa [isRoot, List.isEmpty_iff]
  rw [render, if_neg hroot, String.toList_intercalate, List.map_map]
  rfl

theorem ofText_render {a : Address} (h : ∀ k ∈ a.keys, k.Legible) : ofText a.render = a := by
  obtain ⟨keys⟩ := a
  cases keys with
  | nil => rfl
  | cons key keys =>
    have hsegments : Text.segments '/' (render ⟨key :: keys⟩).toList =
        (key :: keys).map (·.render.toList) := by
      rw [toList_render (List.cons_ne_nil _ _), Text.segments_eq_splitOn]
      refine List.splitOn_intercalate '/' ?_ (List.cons_ne_nil _ _)
      exact List.forall_mem_map.mpr fun k hk => Key.slash_not_mem_render (h k hk)
    have hfilter : ((key :: keys).map (·.render.toList)).filter (!·.isEmpty) =
        (key :: keys).map (·.render.toList) := by
      refine List.filter_eq_self.mpr (List.forall_mem_map.mpr ?_)
      intro k hk
      simpa using Key.toList_render_ne_nil (h k hk)
    have hkeys : ((key :: keys).map (·.render.toList)).map Key.ofSegment = key :: keys := by
      rw [List.map_map]
      exact (List.map_congr_left fun k hk => Key.ofSegment_render (h k hk)).trans (List.map_id _)
    rw [ofText, hsegments, hfilter, hkeys]

theorem legible_of_mem_ofText {s : String} {k : Key} (h : k ∈ (ofText s).keys) : k.Legible := by
  obtain ⟨part, hpart, rfl⟩ := List.mem_map.mp h
  obtain ⟨hsegment, hne⟩ := List.mem_filter.mp hpart
  exact Key.legible_ofSegment (by simpa using hne) (Text.not_mem_of_mem_segments hsegment)

/-- an address is read from its text exactly if segments can spell its keys -/
theorem ofText_render_iff {a : Address} : ofText a.render = a ↔ ∀ k ∈ a.keys, k.Legible := by
  constructor
  · intro h k hk
    rw [← h] at hk
    exact legible_of_mem_ofText hk
  · exact ofText_render

/-- **An address and its text.**  An address comes back from its text exactly if each name in it has
some characters, no slash among them, and does not spell a position. -/
theorem reads_back_iff {a : Address} (hindex : ∀ i, .index i ∈ a.keys → i < 2 ^ 64) :
    ofText a.render = a ↔ ∀ name, .field name ∈ a.keys →
      name ≠ "" ∧ '/' ∉ name.toList ∧ ∀ i, ¬IndexText name.toList i := by
  rw [ofText_render_iff]
  constructor
  · intro h name hname
    exact Key.legible_field_iff.mp (h _ hname)
  · intro h k hk
    cases k with
    | field name => exact Key.legible_field_iff.mpr (h name hk)
    | index i =>
      have hi := hindex i hk
      show i ≤ maxIndex
      rw [maxIndex]
      omega

/-- the largest position, the number behind it, and signs without a position -/
theorem reads_back_of_large_numbers :
    let a : Address := ⟨[.index 18446744073709551615, .field "18446744073709551616", .field "+",
      .field "-1"]⟩
    (∀ i, .index i ∈ a.keys → i < 2 ^ 64) ∧ ofText a.render = a := by
  intro a
  have hindex : ∀ i, .index i ∈ a.keys → i < 2 ^ 64 := by
    intro i hi
    simp only [a, List.mem_cons, Key.index.injEq, reduceCtorEq, List.not_mem_nil, or_false] at hi
    omega
  refine ⟨hindex, (reads_back_iff hindex).mpr ?_⟩
  intro name hname
  refine Key.legible_field_iff.mp ?_
  simp only [a, List.mem_cons, Key.field.injEq, reduceCtorEq, List.not_mem_nil, or_false,
    false_or] at hname
  obtain rfl | rfl | rfl := hname
  · exact ⟨by decide, by decide, rfl⟩
  · exact ⟨by decide, by decide, rfl⟩
  · exact ⟨by decide, by decide, rfl⟩

end Address

/-! ## the keys of a tree -/

namespace Node

/-- the keys of the children of a node -/
def childKeys (n : Node) : List Key :=
  match n.children with
  | .none => []
  | .keyed fs => fs.map fun f => .field f.1
  | .sequence ns => (List.range ns.length).map .index

theorem childKeys_keyed (tag : String) (fields : List (String × Node)) :
    (Node.keyed tag fields).childKeys = fields.map fun f => .field f.1 := by
  cases fields <;> rfl

theorem map_fst_itemEntries (a : Address) (i : Nat) (ns : List Node) :
    (itemEntries a i ns).map (·.1) = (List.range' i ns.length).map fun j => a.child (.index j) := by
  induction ns generalizing i with
  | nil => rfl
  | cons n ns ih =>
    rw [itemEntries, List.map_cons, ih, List.length_cons, List.range'_succ, List.map_cons]

theorem map_fst_entries (a : Address) (n : Node) :
    (n.entries a).map (·.1) = n.childKeys.map a.child := by
  obtain ⟨t, v, c⟩ := n
  cases c with
  | none => rfl
  | keyed fs =>
    show (fs.map _).map _ = (fs.map _).map _
    rw [List.map_map, List.map_map]
    rfl
  | sequence ns =>
    show (itemEntries a 0 ns).map _ = ((List.range ns.length).map _).map _
    rw [map_fst_itemEntries, List.map_map, List.range_eq_range']
    rfl

theorem exists_key_of_mem_entries {a : Address} {n : Node} {e : Address × Node}
    (h : e ∈ n.entries a) : ∃ k ∈ n.childKeys, e.1 = a.child k := by
  have hmem : e.1 ∈ n.childKeys.map a.child := by
    rw [← map_fst_entries]
    exact List.mem_map.mpr ⟨e, h, rfl⟩
  obtain ⟨k, hk, heq⟩ := List.mem_map.mp hmem
  exact ⟨k, hk, heq.symm⟩

theorem exists_entry_of_mem_childKeys (a : Address) {n : Node} {k : Key} (h : k ∈ n.childKeys) :
    ∃ m, (a.child k, m) ∈ n.entries a := by
  have hmem : a.child k ∈ (n.entries a).map (·.1) := by
    rw [map_fst_entries]
    exact List.mem_map.mpr ⟨k, h, rfl⟩
  obtain ⟨⟨b, m⟩, he, rfl⟩ := List.mem_map.mp hmem
  exact ⟨m, he⟩

/-- the keys in the addresses below `a` are those of `a` and those of the nodes -/
theorem forall_keys_visit {P : Key → Prop} {n : Node} : ∀ {a : Address},
    (∀ e ∈ n.visit a, ∀ k ∈ e.1.keys, P k) ↔
      (∀ k ∈ a.keys, P k) ∧ n.All fun m => ∀ k ∈ m.childKeys, P k := by
  induction n using partInduction with
  | step n ih =>
    intro a
    rw [visit_eq, List.forall_mem_cons]
    constructor
    · rintro ⟨hroot, hbelow⟩
      have hentry : ∀ e ∈ n.entries a, (∀ k ∈ e.1.keys, P k) ∧
          e.2.All fun m => ∀ k ∈ m.childKeys, P k := by
        intro e he
        refine (ih e.2 (mem_parts_of_mem_entries he)).mp ?_
        exact fun f hf => hbelow f (List.mem_flatMap.mpr ⟨e, he, hf⟩)
      refine ⟨hroot, .intro ?_ ?_⟩
      · intro k hk
        obtain ⟨m, hm⟩ := exists_entry_of_mem_childKeys a hk
        exact (hentry _ hm).1 k (List.mem_append_right _ List.mem_cons_self)
      · intro m hm
        obtain ⟨b, hb⟩ := exists_entry_of_mem_parts a hm
        exact (hentry _ hb).2
    · rintro ⟨hroot, hall⟩
      refine ⟨hroot, ?_⟩
      intro f hf
      obtain ⟨e, he, hfe⟩ := List.mem_flatMap.mp hf
      obtain ⟨k, hk, hchild⟩ := exists_key_of_mem_entries he
      have hpart := mem_parts_of_mem_entries he
      refine (ih e.2 hpart).mpr ⟨?_, hall.parts e.2 hpart⟩ f hfe
      rw [hchild, child_keys]
      exact List.forall_mem_append.mpr ⟨hroot, List.forall_mem_singleton.mpr (hall.root k hk)⟩

theorem forall_keys_walk {P : Key → Prop} {n : Node} :
    (∀ e ∈ n.walk, ∀ k ∈ e.1.keys, P k) ↔ n.All fun m => ∀ k ∈ m.childKeys, P k := by
  rw [walk_eq_visit, forall_keys_visit]
  exact and_iff_right (List.forall_mem_nil _)

/-! ## finding nodes by text -/

/-- the text of an address leads back to the address and so to its node, and no two nodes share a
text -/
structure LegibleAddresses (t : Node) : Prop where
  ofText : ∀ e ∈ t.walk, Address.ofText e.1.render = e.1
  get : ∀ e ∈ t.walk, t.get? (Address.ofText e.1.render) = some e.2
  distinct : (t.walk.map (·.1.render)).Nodup

theorem legibleAddresses_iff {t : Node} (hd : t.All DistinctFields) :
    t.LegibleAddresses ↔ t.All fun n => ∀ k ∈ n.childKeys, k.Legible := by
  rw [← forall_keys_walk]
  constructor
  · intro h e he
    exact Address.ofText_render_iff.mp (h.ofText e he)
  · intro h
    have hofText : ∀ e ∈ t.walk, Address.ofText e.1.render = e.1 :=
      fun e he => Address.ofText_render (h e he)
    refine ⟨hofText, ?_, ?_⟩
    · intro e he
      rw [hofText e he]
      exact (mem_walk_iff hd).mp he
    · -- reading the texts gives the addresses, which are distinct
      have hmap : (t.walk.map (·.1.render)).map Address.ofText = t.walk.map (·.1) := by
        rw [List.map_map]
        exact List.map_congr_left hofText
      have hdistinct := nodup_walk hd
      rw [← hmap] at hdistinct
      exact List.Nodup.of_map _ hdistinct

end Node

end TraceFront
