import TraceFront.Proofs.Tree.Conforming
import TraceFront.Tree.Identity

/-!
# The encoding of trees is canonical

Where the bytes of one tree end can be told from the bytes alone: if the bytes of two trees start
two equal strings, the trees are equal and so is what comes after them.  It is shown for every part
in the same way (`_append_inj`), from words up to trees.

* `Node.Fits`             a word can count the bytes of a node's texts and the node's children;
* `wordBytes_append_inj`, `lengthBytes_append_inj`, `textBytes_append_inj`,
  `valueBytes_append_inj`, `tagBytes_append_inj`    the parts of a node;
* `Delimited`             the bytes of a tree tell the tree and where it ends;
* `delimited_of_fits`     those of every tree of fitting nodes do.

Markers keep the kinds of a part apart, and whatever has no fixed length is preceded by its length.
-/

namespace TraceFront

/-! ## words and lengths -/

theorem toNat_eq_of_wordBytes (w : UInt64) :
    w.toNat = w.toUInt8.toNat + 256 * ((w >>> 8).toUInt8.toNat + 256 * ((w >>> 16).toUInt8.toNat +
      256 * ((w >>> 24).toUInt8.toNat + 256 * ((w >>> 32).toUInt8.toNat +
        256 * ((w >>> 40).toUInt8.toNat + 256 * ((w >>> 48).toUInt8.toNat +
          256 * (w >>> 56).toUInt8.toNat)))))) := by
  have hlt := w.toNat_lt
  simp only [UInt64.toNat_toUInt8, UInt64.toNat_shiftRight, Nat.shiftRight_eq_div_pow]
  simp
  omega

theorem wordBytes_injective {v w : UInt64} (h : wordBytes v = wordBytes w) : v = w := by
  simp only [wordBytes, List.cons.injEq, and_true] at h
  obtain ⟨h₀, h₁, h₂, h₃, h₄, h₅, h₆, h₇⟩ := h
  rw [← UInt64.toNat_inj, toNat_eq_of_wordBytes v, toNat_eq_of_wordBytes w,
    h₀, h₁, h₂, h₃, h₄, h₅, h₆, h₇]

theorem wordBytes_append_inj {v w : UInt64} {x y : List UInt8}
    (h : wordBytes v ++ x = wordBytes w ++ y) : v = w ∧ x = y := by
  obtain ⟨hw, hxy⟩ := List.append_inj h rfl
  exact ⟨wordBytes_injective hw, hxy⟩

theorem lengthBytes_append_inj {m n : Nat} (hm : m < UInt64.size) (hn : n < UInt64.size)
    {x y : List UInt8} (h : lengthBytes m ++ x = lengthBytes n ++ y) : m = n ∧ x = y := by
  obtain ⟨hw, hxy⟩ := wordBytes_append_inj h
  have hnat := congrArg UInt64.toNat hw
  rw [Nat.toUInt64_eq, Nat.toUInt64_eq, UInt64.toNat_ofNat_of_lt' hm,
    UInt64.toNat_ofNat_of_lt' hn] at hnat
  exact ⟨hnat, hxy⟩

/-! ## texts -/

theorem Text.length_bytes (s : String) : (Text.bytes s).length = s.utf8ByteSize := by
  show s.toByteArray.data.toList.length = _
  rw [Array.length_toList, ← String.size_toByteArray]
  rfl

theorem Text.bytes_injective {s t : String} (h : Text.bytes s = Text.bytes t) : s = t :=
  String.toByteArray_inj.mp (ByteArray.ext (Array.toList_inj.mp h))

/-- the length of a text can be counted in a word -/
def Short (s : String) : Prop := s.utf8ByteSize < UInt64.size

instance (s : String) : Decidable (Short s) :=
  inferInstanceAs (Decidable (s.utf8ByteSize < UInt64.size))

theorem textBytes_append_inj {s t : String} (hs : Short s) (ht : Short t) {x y : List UInt8}
    (h : textBytes s ++ x = textBytes t ++ y) : s = t ∧ x = y := by
  rw [textBytes, textBytes, List.append_assoc, List.append_assoc] at h
  obtain ⟨hlen, hrest⟩ := lengthBytes_append_inj hs ht h
  rw [← Text.length_bytes, ← Text.length_bytes] at hlen
  obtain ⟨hst, hxy⟩ := List.append_inj hrest hlen
  exact ⟨Text.bytes_injective hst, hxy⟩

/-! ## values and tags -/

theorem Literal.bytes_append_inj {l l' : Literal String} (hl : ∀ s ∈ l.names, Short s)
    (hl' : ∀ s ∈ l'.names, Short s) {x y : List UInt8} (h : l.bytes ++ x = l'.bytes ++ y) :
    l = l' ∧ x = y := by
  -- of two kinds the markers differ
  cases l with
  | nil =>
    cases l' with
    | nil => exact ⟨rfl, (List.cons.inj h).2⟩
    | _ => exact absurd (List.cons.inj h).1 (by decide)
  | bool b =>
    cases l' with
    | bool b' =>
      obtain ⟨hb, hxy⟩ := List.cons.inj (List.cons.inj h).2
      refine ⟨?_, hxy⟩
      cases b <;> cases b' <;> first | rfl | exact absurd hb (by decide)
    | _ => exact absurd (List.cons.inj h).1 (by decide)
  | int n =>
    cases l' with
    | int m =>
      obtain ⟨hw, hxy⟩ := wordBytes_append_inj (List.cons.inj h).2
      have hnm : n = m := Int64.toBitVec.inj (congrArg UInt64.toBitVec hw)
      exact ⟨congrArg Literal.int hnm, hxy⟩
    | _ => exact absurd (List.cons.inj h).1 (by decide)
  | float r =>
    cases l' with
    | float r' =>
      obtain ⟨hw, hxy⟩ := wordBytes_append_inj (List.cons.inj h).2
      exact ⟨congrArg (fun b => Literal.float ⟨b⟩) hw, hxy⟩
    | _ => exact absurd (List.cons.inj h).1 (by decide)
  | str s =>
    cases l' with
    | str t =>
      obtain ⟨hst, hxy⟩ := textBytes_append_inj (hl s List.mem_cons_self) (hl' t List.mem_cons_self)
        (List.cons.inj h).2
      exact ⟨congrArg Literal.str hst, hxy⟩
    | _ => exact absurd (List.cons.inj h).1 (by decide)
  | keyword s =>
    cases l' with
    | keyword t =>
      obtain ⟨hst, hxy⟩ := textBytes_append_inj (hl s List.mem_cons_self) (hl' t List.mem_cons_self)
        (List.cons.inj h).2
      exact ⟨congrArg Literal.keyword hst, hxy⟩
    | _ => exact absurd (List.cons.inj h).1 (by decide)

/-- the texts in a value -/
def Value.texts : Value → List String
  | .constant l => l.names
  | .symbol n => [n]

/-- the markers of literals are apart from those of symbols and of missing values -/
theorem Literal.bytes_cons (l : Literal String) :
    ∃ m r, l.bytes = m :: r ∧ m ≠ 0x17 ∧ m ≠ 0x10 := by
  cases l <;> exact ⟨_, _, rfl, by decide, by decide⟩

theorem Literal.bytes_append_ne_symbol {l : Literal String} {n : String} {x y : List UInt8} :
    l.bytes ++ x ≠ (Value.symbol n).bytes ++ y := by
  obtain ⟨m, r, hl, hm, _⟩ := l.bytes_cons
  intro h
  rw [hl] at h
  exact hm (List.cons.inj h).1

theorem Value.bytes_append_inj {v w : Value} (hv : ∀ s ∈ v.texts, Short s)
    (hw : ∀ s ∈ w.texts, Short s) {x y : List UInt8} (h : v.bytes ++ x = w.bytes ++ y) :
    v = w ∧ x = y := by
  cases v with
  | constant l =>
    cases w with
    | constant l' =>
      obtain ⟨hl, hxy⟩ := Literal.bytes_append_inj hv hw h
      exact ⟨congrArg Value.constant hl, hxy⟩
    | symbol n => exact absurd h Literal.bytes_append_ne_symbol
  | symbol n =>
    cases w with
    | constant l => exact absurd h.symm Literal.bytes_append_ne_symbol
    | symbol m =>
      obtain ⟨hnm, hxy⟩ := textBytes_append_inj (hv n List.mem_cons_self) (hw m List.mem_cons_self)
        (List.cons.inj h).2
      exact ⟨congrArg Value.symbol hnm, hxy⟩

theorem Value.bytes_append_ne_none {v : Value} {x y : List UInt8} :
    v.bytes ++ x ≠ valueBytes none ++ y := by
  intro h
  cases v with
  | constant l =>
    obtain ⟨m, r, hl, _, hm⟩ := l.bytes_cons
    rw [Value.bytes, hl] at h
    exact hm (List.cons.inj h).1
  | symbol n => exact absurd (List.cons.inj h).1 (by decide)

theorem valueBytes_append_inj {v w : Option Value} (hv : ∀ u ∈ v, ∀ s ∈ u.texts, Short s)
    (hw : ∀ u ∈ w, ∀ s ∈ u.texts, Short s) {x y : List UInt8}
    (h : valueBytes v ++ x = valueBytes w ++ y) : v = w ∧ x = y := by
  cases v with
  | none =>
    cases w with
    | none => exact ⟨rfl, (List.cons.inj h).2⟩
    | some w => exact absurd h.symm Value.bytes_append_ne_none
  | some v =>
    cases w with
    | none => exact absurd h Value.bytes_append_ne_none
    | some w =>
      obtain ⟨hvw, hxy⟩ := Value.bytes_append_inj (hv v rfl) (hw w rfl) h
      exact ⟨congrArg some hvw, hxy⟩

theorem tagBytes_append_inj {t u : Option String} (ht : ∀ s ∈ t, Short s) (hu : ∀ s ∈ u, Short s)
    {x y : List UInt8} (h : tagBytes t ++ x = tagBytes u ++ y) : t = u ∧ x = y := by
  cases t with
  | none =>
    cases u with
    | none => exact ⟨rfl, (List.cons.inj h).2⟩
    | some u => exact absurd (List.cons.inj h).1 (by decide)
  | some t =>
    cases u with
    | none => exact absurd (List.cons.inj h).1 (by decide)
    | some u =>
      obtain ⟨htu, hxy⟩ := textBytes_append_inj (ht t rfl) (hu u rfl) (List.cons.inj h).2
      exact ⟨congrArg some htu, hxy⟩

/-! ## trees -/

namespace Node

/-- the texts of a node and the number of its children can be counted in a word -/
structure Fits (n : Node) : Prop where
  tag : ∀ t ∈ n.tag, Short t
  value : ∀ v ∈ n.value, ∀ s ∈ v.texts, Short s
  names : ∀ k ∈ n.fieldNames, Short k
  count : n.children.length < UInt64.size

/-- the bytes of the tree tell which tree it is and where they end -/
def Delimited (a : Node) : Prop :=
  ∀ b : Node, b.All Fits → ∀ x y, a.bytes ++ x = b.bytes ++ y → a = b ∧ x = y

theorem itemsBytes_append_inj {ns ms : List Node} (hlen : ns.length = ms.length)
    (hns : ∀ n ∈ ns, n.Delimited) (hms : ∀ m ∈ ms, m.All Fits) {x y : List UInt8}
    (h : itemsBytes ns ++ x = itemsBytes ms ++ y) : ns = ms ∧ x = y := by
  induction ns generalizing ms with
  | nil =>
    cases ms with
    | nil => exact ⟨rfl, h⟩
    | cons m ms => cases hlen
  | cons n ns ih =>
    cases ms with
    | nil => cases hlen
    | cons m ms =>
      obtain ⟨hn, hns'⟩ := List.forall_mem_cons.mp hns
      obtain ⟨hm, hms'⟩ := List.forall_mem_cons.mp hms
      rw [itemsBytes, itemsBytes, List.append_assoc, List.append_assoc] at h
      obtain ⟨hnm, hrest⟩ := hn m hm _ _ h
      obtain ⟨hnsms, hxy⟩ := ih (Nat.succ.inj hlen) hns' hms' hrest
      exact ⟨List.cons_eq_cons.mpr ⟨hnm, hnsms⟩, hxy⟩

theorem fieldsBytes_append_inj {fs gs : List (String × Node)} (hlen : fs.length = gs.length)
    (hfs : ∀ f ∈ fs, Short f.1 ∧ f.2.Delimited) (hgs : ∀ g ∈ gs, Short g.1 ∧ g.2.All Fits)
    {x y : List UInt8} (h : fieldsBytes fs ++ x = fieldsBytes gs ++ y) : fs = gs ∧ x = y := by
  induction fs generalizing gs with
  | nil =>
    cases gs with
    | nil => exact ⟨rfl, h⟩
    | cons g gs => cases hlen
  | cons f fs ih =>
    cases gs with
    | nil => cases hlen
    | cons g gs =>
      obtain ⟨⟨hk, hf⟩, hfs'⟩ := List.forall_mem_cons.mp hfs
      obtain ⟨⟨hk', hg⟩, hgs'⟩ := List.forall_mem_cons.mp hgs
      rw [fieldsBytes, fieldsBytes, List.append_assoc, List.append_assoc, List.append_assoc,
        List.append_assoc] at h
      obtain ⟨hname, hrest⟩ := textBytes_append_inj hk hk' h
      obtain ⟨hnode, hrest⟩ := hf g.2 hg _ _ hrest
      obtain ⟨hfsgs, hxy⟩ := ih (Nat.succ.inj hlen) hfs' hgs' hrest
      exact ⟨List.cons_eq_cons.mpr ⟨Prod.ext hname hnode, hfsgs⟩, hxy⟩

/-- the names and the trees of the fields of a node with a property below it -/
theorem fields_of_fits {t : Option String} {v : Option Value} {fs : List (String × Node)}
    (hfits : (Node.mk t v (.keyed fs)).Fits) {P : Node → Prop}
    (hparts : ∀ m ∈ (Node.mk t v (.keyed fs)).parts, P m) : ∀ f ∈ fs, Short f.1 ∧ P f.2 :=
  fun f hf => ⟨hfits.names f.1 (List.mem_map_of_mem hf), hparts f.2 (List.mem_map_of_mem hf)⟩

theorem childrenBytes_append_inj {a b : Node} (ha : a.Fits) (hb : b.Fits)
    (hdel : ∀ m ∈ a.parts, m.Delimited) (hall : ∀ m ∈ b.parts, m.All Fits) {x y : List UInt8}
    (h : childrenBytes a.children ++ x = childrenBytes b.children ++ y) :
    a.children = b.children ∧ x = y := by
  obtain ⟨t, v, c⟩ := a
  obtain ⟨t', v', c'⟩ := b
  cases c with
  | none =>
    cases c' with
    | none => exact ⟨rfl, (List.cons.inj h).2⟩
    | _ => exact absurd (List.cons.inj h).1 (by decide)
  | keyed fs =>
    cases c' with
    | keyed gs =>
      have hcount : (lengthBytes fs.length ++ fieldsBytes fs) ++ x =
          (lengthBytes gs.length ++ fieldsBytes gs) ++ y := (List.cons.inj h).2
      rw [List.append_assoc, List.append_assoc] at hcount
      obtain ⟨hlen, hrest⟩ := lengthBytes_append_inj ha.count hb.count hcount
      obtain ⟨hfs, hxy⟩ := fieldsBytes_append_inj hlen (fields_of_fits ha hdel)
        (fields_of_fits hb hall) hrest
      exact ⟨congrArg Children.keyed hfs, hxy⟩
    | _ => exact absurd (List.cons.inj h).1 (by decide)
  | sequence ns =>
    cases c' with
    | sequence ms =>
      have hcount : (lengthBytes ns.length ++ itemsBytes ns) ++ x =
          (lengthBytes ms.length ++ itemsBytes ms) ++ y := (List.cons.inj h).2
      rw [List.append_assoc, List.append_assoc] at hcount
      obtain ⟨hlen, hrest⟩ := lengthBytes_append_inj ha.count hb.count hcount
      obtain ⟨hns, hxy⟩ := itemsBytes_append_inj hlen hdel hall hrest
      exact ⟨congrArg Children.sequence hns, hxy⟩
    | _ => exact absurd (List.cons.inj h).1 (by decide)

theorem bytes_eq (n : Node) :
    n.bytes = tagBytes n.tag ++ valueBytes n.value ++ childrenBytes n.children := by
  obtain ⟨t, v, c⟩ := n
  rfl

/-- tag, value and children are told apart one after the other -/
theorem delimited_of_fits {a : Node} (ha : a.All Fits) : a.Delimited := by
  induction ha with
  | @intro a hfits _ ih =>
    intro b hb x y h
    rw [bytes_eq, bytes_eq, List.append_assoc, List.append_assoc, List.append_assoc,
      List.append_assoc] at h
    obtain ⟨htag, hrest⟩ := tagBytes_append_inj hfits.tag hb.root.tag h
    obtain ⟨hvalue, hrest⟩ := valueBytes_append_inj hfits.value hb.root.value hrest
    obtain ⟨hchildren, hxy⟩ := childrenBytes_append_inj hfits hb.root ih hb.parts hrest
    refine ⟨?_, hxy⟩
    cases a
    cases b
    cases htag
    cases hvalue
    cases hchildren
    rfl

theorem beq_eq_true_iff {a b : Node} : Node.beq a b = true ↔ a = b :=
  ⟨eq_of_beq a b, fun h => h ▸ beq_self a⟩

theorem encoding_eq_iff {a b : Node} (ha : a.All Fits) (hb : b.All Fits) :
    a.encoding = b.encoding ↔ a = b := by
  constructor
  · intro h
    exact (delimited_of_fits ha b hb [] [] (congrArg (· ++ []) (List.cons.inj h).2)).1
  · rintro rfl
    rfl

/-- **The encoding of trees is canonical.**  The bytes of a tree tell the tree and where they end.
So two trees have equal encodings exactly if they are equal, and equal identities exactly if they
are equal or their encodings are a collision of the hash, whichever hash it is. -/
theorem encoding_canonical [ContentHash] {a b : Node} (ha : a.All Fits) (hb : b.All Fits) :
    (∀ x y, a.bytes ++ x = b.bytes ++ y → Node.beq a b = true ∧ x = y) ∧
    (a.encoding = b.encoding ↔ Node.beq a b = true) ∧
    (Identity.ofNode a = Identity.ofNode b ↔ Node.beq a b = true ∨
      a.encoding ≠ b.encoding ∧ ContentHash.hash a.encoding = ContentHash.hash b.encoding) := by
  refine ⟨?_, ?_, ?_⟩
  · intro x y h
    obtain ⟨hab, hxy⟩ := delimited_of_fits ha b hb x y h
    exact ⟨beq_eq_true_iff.mpr hab, hxy⟩
  · rw [beq_eq_true_iff]
    exact encoding_eq_iff ha hb
  · rw [beq_eq_true_iff, ← encoding_eq_iff ha hb]
    constructor
    · intro h
      by_cases he : a.encoding = b.encoding
      · exact .inl he
      · exact .inr ⟨he, congrArg Identity.bytes h⟩
    · rintro (he | ⟨_, hh⟩)
      · exact congrArg (fun bs => Identity.mk (ContentHash.hash bs)) he
      · exact congrArg Identity.mk hh

/-- an empty list of fields is told apart from no children, also beside a value -/
theorem encoding_of_no_fields_ne_of_no_children :
    (Node.mk (some "t") (some (.symbol "x")) (.keyed [])).encoding ≠
      (Node.mk (some "t") (some (.symbol "x")) .none).encoding := by
  have htag : ∀ t ∈ some "t", Short t := by decide
  have hvalue : ∀ v ∈ some (Value.symbol "x"), ∀ s ∈ v.texts, Short s := by decide
  have ha : (Node.mk (some "t") (some (.symbol "x")) (.keyed [])).All Fits :=
    .intro ⟨htag, hvalue, List.forall_mem_nil _, by decide⟩ (List.forall_mem_nil _)
  have hb : (Node.mk (some "t") (some (.symbol "x")) .none).All Fits :=
    .intro ⟨htag, hvalue, List.forall_mem_nil _, by decide⟩ (List.forall_mem_nil _)
  intro h
  exact absurd ((encoding_canonical ha hb).2.1.mp h) (by decide)

end Node

end TraceFront
