import TraceFront.Proofs.Session.Interning
import TraceFront.Proofs.Source.Identifiers

/-!
# The name of a pattern tells the pattern

A tuple pattern is named by the names of its parts, in brackets and with separators between them.  In
a pattern from a source the brackets and separators of its name are those of tuples and no others:
the lexer ends a symbol at a bracket, and recognition refuses a symbol with a separator.

* `PartText`               the text of a part that is no tuple, and `Ended` what may come behind it;
* `tailText`               what comes behind a part of a tuple, up to the closing bracket;
* `wholeName_append_inj`   the name of a pattern tells where it ends, and with it the pattern;
* `partName_of_read`       the names in a pattern from a source are such parts;
* `length_wholeName_lt`    a part has a shorter name than its tuple.
-/

namespace TraceFront

namespace Pattern

/-! ## the text of a name -/

/-- the rest of a tuple's name: a separator before each part, and the closing bracket -/
def tailText : List (Pattern String) → List Char
  | [] => [']']
  | p :: ps => Vocabulary.separator :: (p.wholeName.toList ++ tailText ps)

theorem tailText_nil : tailText [] = [']'] := rfl

theorem tailText_cons (p : Pattern String) (ps : List (Pattern String)) :
    tailText (p :: ps) = Vocabulary.separator :: (p.wholeName.toList ++ tailText ps) := rfl

theorem intercalate_append_closing (p : Pattern String) (ps : List (Pattern String)) :
    [Vocabulary.separator].intercalate ((p :: ps).map (·.wholeName.toList)) ++ [']'] =
      p.wholeName.toList ++ tailText ps := by
  induction ps generalizing p with
  | nil => rw [List.map_singleton, List.intercalate_singleton, tailText_nil]
  | cons q ps ih =>
    have hrest := ih q
    rw [List.map_cons] at hrest
    rw [List.map_cons, List.map_cons, List.intercalate_cons_cons, List.append_assoc, hrest,
      tailText_cons, List.append_assoc]
    rfl

theorem toList_wholeName_tuple (ps : List (Pattern String)) : (tuple ps).wholeName.toList =
    '[' :: ([Vocabulary.separator].intercalate (ps.map (·.wholeName.toList)) ++ [']']) := by
  have hparts : (Vocabulary.separator.toString.intercalate (wholeNames ps)).toList =
      [Vocabulary.separator].intercalate (ps.map (·.wholeName.toList)) := by
    rw [String.toList_intercalate, wholeNames_eq_map, List.map_map]
    rfl
  rw [wholeName, String.toList_append, String.toList_append, hparts]
  rfl

theorem toList_wholeName_nil : (tuple []).wholeName.toList = ['[', ']'] := toList_wholeName_tuple []

theorem toList_wholeName_cons (p : Pattern String) (ps : List (Pattern String)) :
    (tuple (p :: ps)).wholeName.toList = '[' :: (p.wholeName.toList ++ tailText ps) := by
  rw [toList_wholeName_tuple, intercalate_append_closing]

/-! ## lengths -/

theorem length_lt_tailText {p : Pattern String} {ps : List (Pattern String)} (h : p ∈ ps) :
    p.wholeName.toList.length < (tailText ps).length := by
  induction ps with
  | nil => cases h
  | cons q ps ih =>
    rw [tailText_cons, List.length_cons, List.length_append]
    rcases List.mem_cons.mp h with rfl | h
    · omega
    · have hlater := ih h
      omega

theorem length_wholeName_lt {p : Pattern String} {ps : List (Pattern String)} (h : p ∈ ps) :
    p.wholeName.length < (tuple ps).wholeName.length := by
  rw [← String.length_toList, ← String.length_toList]
  cases ps with
  | nil => cases h
  | cons q ps =>
    have hpart := length_lt_tailText h
    rw [tailText_cons] at hpart
    rw [toList_wholeName_cons]
    exact hpart

/-! ## parts that are no tuples -/

/-- the character is neither a bracket nor the separator -/
def isPartChar (c : Char) : Bool := c != '[' && c != ']' && c != Vocabulary.separator

structure PartText (cs : List Char) : Prop where
  ne_nil : cs ≠ []
  chars : ∀ c ∈ cs, isPartChar c = true

/-- no part goes on here -/
def Ended (x : List Char) : Prop := x.takeWhile isPartChar = []

theorem ended_nil : Ended [] := rfl

theorem ended_tailText (ps : List (Pattern String)) (x : List Char) : Ended (tailText ps ++ x) := by
  cases ps with
  | nil => rfl
  | cons p ps => rfl

namespace PartText

variable {v w x y : List Char}

theorem takeWhile_append (hv : PartText v) (hx : Ended x) : (v ++ x).takeWhile isPartChar = v := by
  rw [List.takeWhile_append_of_pos hv.chars, hx, List.append_nil]

theorem append_inj (hv : PartText v) (hw : PartText w) (hx : Ended x) (hy : Ended y)
    (h : v ++ x = w ++ y) : v = w ∧ x = y := by
  have htext : v = w := by
    rw [← hv.takeWhile_append hx, h, hw.takeWhile_append hy]
  rw [htext] at h
  exact ⟨htext, List.append_cancel_left h⟩

theorem append_ne_cons (hv : PartText v) {c : Char} (hc : isPartChar c = false) :
    v ++ x ≠ c :: y := by
  cases v with
  | nil => exact absurd rfl hv.ne_nil
  | cons d v =>
    intro h
    have hd := hv.chars d List.mem_cons_self
    rw [(List.cons.inj h).1, hc] at hd
    cases hd

end PartText

/-- a name that stands for itself in the name of a tuple -/
structure PartName (n : String) : Prop where
  text : PartText n.toList
  not_wildcard : n ≠ Vocabulary.wildcard

theorem partText_wildcard : PartText Vocabulary.wildcard.toList :=
  ⟨List.cons_ne_nil _ _, List.forall_mem_singleton.mpr rfl⟩

/-- no pattern has a name that starts like the end of a tuple -/
theorem wholeName_append_ne_closing {p : Pattern String} (hp : ∀ n ∈ p.binders, PartName n)
    (x y : List Char) : p.wholeName.toList ++ x ≠ ']' :: y := by
  cases p with
  | name n => exact (hp n List.mem_cons_self).text.append_ne_cons rfl
  | wildcard => exact partText_wildcard.append_ne_cons rfl
  | tuple ps =>
    rw [toList_wholeName_tuple]
    intro h
    exact absurd (List.cons.inj h).1 (by decide)

theorem tuple_append_ne (ps : List (Pattern String)) {v : List Char} (hv : PartText v)
    (x y : List Char) : v ++ x ≠ (tuple ps).wholeName.toList ++ y := by
  rw [toList_wholeName_tuple]
  exact hv.append_ne_cons rfl

theorem tuple_nil_append_ne {q : Pattern String} {qs : List (Pattern String)}
    (hq : ∀ n ∈ (tuple (q :: qs)).binders, PartName n) (x y : List Char) :
    (tuple []).wholeName.toList ++ x ≠ (tuple (q :: qs)).wholeName.toList ++ y := by
  have hfirst : ∀ n ∈ q.binders, PartName n := (List.forall_mem_append.mp hq).1
  rw [toList_wholeName_nil, toList_wholeName_cons]
  intro h
  have hinside : ']' :: x = q.wholeName.toList ++ tailText qs ++ y := (List.cons.inj h).2
  rw [List.append_assoc] at hinside
  exact wholeName_append_ne_closing hfirst _ _ hinside.symm

/-! ## names tell patterns -/

mutual

/-- the name of a pattern tells where it ends, and with it the pattern -/
theorem wholeName_append_inj : ∀ {p q : Pattern String} {x y : List Char},
    (∀ n ∈ p.binders, PartName n) → (∀ n ∈ q.binders, PartName n) → Ended x → Ended y →
    p.wholeName.toList ++ x = q.wholeName.toList ++ y → p = q ∧ x = y
  | name n, name m, x, y, hp, hq, hx, hy, h => by
    obtain ⟨hname, hrest⟩ := (hp n List.mem_cons_self).text.append_inj
      (hq m List.mem_cons_self).text hx hy h
    exact ⟨congrArg name (String.toList_inj.mp hname), hrest⟩
  | name n, wildcard, x, y, hp, _, hx, hy, h => by
    have hn := hp n List.mem_cons_self
    obtain ⟨hname, _⟩ := hn.text.append_inj partText_wildcard hx hy h
    exact absurd (String.toList_inj.mp hname) hn.not_wildcard
  | wildcard, name m, x, y, _, hq, hx, hy, h => by
    have hm := hq m List.mem_cons_self
    obtain ⟨hname, _⟩ := partText_wildcard.append_inj hm.text hx hy h
    exact absurd (String.toList_inj.mp hname).symm hm.not_wildcard
  | wildcard, wildcard, x, y, _, _, _, _, h => ⟨rfl, List.append_cancel_left h⟩
  | name n, tuple qs, x, y, hp, _, _, _, h =>
    absurd h (tuple_append_ne qs (hp n List.mem_cons_self).text x y)
  | wildcard, tuple qs, x, y, _, _, _, _, h =>
    absurd h (tuple_append_ne qs partText_wildcard x y)
  | tuple ps, name m, x, y, _, hq, _, _, h =>
    absurd h.symm (tuple_append_ne ps (hq m List.mem_cons_self).text y x)
  | tuple ps, wildcard, x, y, _, _, _, _, h =>
    absurd h.symm (tuple_append_ne ps partText_wildcard y x)
  | tuple [], tuple [], x, y, _, _, _, _, h => ⟨rfl, List.append_cancel_left h⟩
  | tuple [], tuple (q :: qs), x, y, _, hq, _, _, h => absurd h (tuple_nil_append_ne hq x y)
  | tuple (p :: ps), tuple [], x, y, hp, _, _, _, h => absurd h.symm (tuple_nil_append_ne hp y x)
  | tuple (p :: ps), tuple (q :: qs), x, y, hp, hq, _, _, h => by
    -- behind its bracket a tuple goes on like the rest of one, behind its separator
    rw [toList_wholeName_cons, toList_wholeName_cons] at h
    have hrest : tailText (p :: ps) ++ x = tailText (q :: qs) ++ y := by
      rw [tailText_cons, tailText_cons]
      exact congrArg (Vocabulary.separator :: ·) (List.cons.inj h).2
    obtain ⟨hparts, hrest⟩ := tailText_append_inj hp hq hrest
    exact ⟨congrArg tuple hparts, hrest⟩

theorem tailText_append_inj : ∀ {ps qs : List (Pattern String)} {x y : List Char},
    (∀ n ∈ bindersAll ps, PartName n) → (∀ n ∈ bindersAll qs, PartName n) →
    tailText ps ++ x = tailText qs ++ y → ps = qs ∧ x = y
  | [], [], x, y, _, _, h => ⟨rfl, (List.cons.inj h).2⟩
  | [], q :: qs, x, y, _, _, h => absurd (List.cons.inj h).1 (by decide)
  | p :: ps, [], x, y, _, _, h => absurd (List.cons.inj h).1 (by decide)
  | p :: ps, q :: qs, x, y, hps, hqs, h => by
    obtain ⟨hp, hps'⟩ := List.forall_mem_append.mp hps
    obtain ⟨hq, hqs'⟩ := List.forall_mem_append.mp hqs
    rw [tailText_cons, tailText_cons, List.cons_append, List.cons_append, List.append_assoc,
      List.append_assoc] at h
    obtain ⟨rfl, hrest⟩ := wholeName_append_inj hp hq (ended_tailText ps x) (ended_tailText qs y)
      (List.cons.inj h).2
    obtain ⟨rfl, rfl⟩ := tailText_append_inj hps' hqs' hrest
    exact ⟨rfl, rfl⟩

end

theorem wholeName_inj {p q : Pattern String} (hp : ∀ n ∈ p.binders, PartName n)
    (hq : ∀ n ∈ q.binders, PartName n) (h : p.wholeName = q.wholeName) : p = q := by
  have htext : p.wholeName.toList ++ [] = q.wholeName.toList ++ [] := by rw [h]
  exact (wholeName_append_inj hp hq ended_nil ended_nil htext).1

end Pattern

/-! ## patterns of a source -/

open Pattern

theorem Identifier.partName {n : String} (h : Identifier n) : PartName n := by
  refine ⟨⟨h.text.ne_nil, ?_⟩, h.not_wildcard⟩
  intro c hc
  have hatom := h.text.atomChars c hc
  have hopening : c ≠ '[' := by
    rintro rfl
    exact absurd hatom (by decide)
  have hclosing : c ≠ ']' := by
    rintro rfl
    exact absurd hatom (by decide)
  have hseparator : c ≠ Vocabulary.separator := by
    rintro rfl
    exact h.no_separator hc
  simp [isPartChar, hopening, hclosing, hseparator]

/-- an allowed name that is read from a source is an identifier -/
theorem identifier_of_read {source : String} {ds : List (Datum String)} (h : read source = .ok ds)
    {d : Datum String}
    (hd : d ∈ Datum.subtermsAll ds) {n : String} (hn : Found d n) : Identifier n := by
  obtain ⟨c, hc, hdc⟩ := Datum.mem_subtermsAll.mp hd
  rcases read_symbols h c hc n (Datum.symbols_of_mem_subterms hdc hn.1) with hreserved | hplain
  · rw [hn.2.not_reserved] at hreserved
    cases hreserved
  · exact { hplain, hn.2 with }

theorem partName_of_read {source : String} {ds : List (Datum String)} (h : read source = .ok ds)
    {d : Datum String}
    (hd : d ∈ Datum.subtermsAll ds) {p : Pattern String} (hp : Pattern.ofDatum d = .ok p) :
    ∀ n ∈ p.binders, PartName n :=
  fun n hn => (identifier_of_read h hd (Pattern.binders_found hp n hn)).partName

/-- **Synthesized names do not collide.**  Two patterns that are read from sources have the same name
only if they are the same pattern, and so have the handles of their names in one interner.  The name
of a tuple or a wildcard is no name that an expression from a source refers to. -/
theorem eq_of_wholeName_eq {source₁ source₂ : String} {ds₁ ds₂ : List (Datum String)}
    (h₁ : read source₁ = .ok ds₁) (h₂ : read source₂ = .ok ds₂) {d₁ d₂ : Datum String}
    (hd₁ : d₁ ∈ Datum.subtermsAll ds₁) (hd₂ : d₂ ∈ Datum.subtermsAll ds₂) {p : Pattern String}
    (hp : Pattern.ofDatum d₁ = .ok p) :
    (∀ q, Pattern.ofDatum d₂ = .ok q →
      (p.wholeName = q.wholeName → p = q) ∧
      ∀ t : Interner, t.Knows p.wholeName → t.Knows q.wholeName →
        t.nameOf p.wholeName = t.nameOf q.wholeName → p = q) ∧
    (p.isAtomic = false → ∀ n span, Expr.ofDatum d₂ = .ok (.var n span) → n ≠ p.wholeName) := by
  have hparts := partName_of_read h₁ hd₁ hp
  constructor
  · intro q hq
    have hinj := wholeName_inj hparts (partName_of_read h₂ hd₂ hq)
    refine ⟨hinj, ?_⟩
    intro t hpknown hqknown hhandles
    exact hinj ((Interner.nameOf_eq_iff hpknown hqknown).mp hhandles)
  · intro hp n span hvar hn
    have hname := identifier_of_read h₂ hd₂ (Expr.identifiers_found hvar n List.mem_cons_self)
    -- the variable would be the pattern of that name
    have hsame : p = name n :=
      wholeName_inj hparts (List.forall_mem_singleton.mpr hname.partName) hn.symm
    rw [hsame] at hp
    cases hp

/-- one pattern in two spellings, and a variable behind the second -/
theorem eq_of_wholeName_eq_two_spellings :
    ∃ d₁ d₂ x p, read "[a [b _] []]" = .ok [d₁] ∧ read "(tuple a [b _] (tuple)) x" = .ok [d₂, x] ∧
      Pattern.ofDatum d₁ = .ok p ∧ p.wholeName = "[a|[b|_]|[]]" ∧
      (∃ q, Pattern.ofDatum d₂ = .ok q ∧ p.wholeName = q.wholeName ∧ p = q) ∧
      Expr.ofDatum x = .ok (.var "x" ⟨24, 25⟩) ∧ "x" ≠ p.wholeName := by
  let d₁ : Datum String := .vector [.symbol "a" ⟨1, 2⟩, .vector [.symbol "b" ⟨4, 5⟩, .symbol "_" ⟨6, 7⟩]
    ⟨3, 8⟩, .vector [] ⟨9, 11⟩] ⟨0, 12⟩
  let d₂ : Datum String := .list [.symbol "tuple" ⟨1, 6⟩, .symbol "a" ⟨7, 8⟩,
    .vector [.symbol "b" ⟨10, 11⟩, .symbol "_" ⟨12, 13⟩] ⟨9, 14⟩,
    .list [.symbol "tuple" ⟨16, 21⟩] ⟨15, 22⟩] ⟨0, 23⟩
  let x : Datum String := .symbol "x" ⟨24, 25⟩
  let p := Pattern.tuple [.name "a", .tuple [.name "b", .wildcard], .tuple []]
  have hread₁ : read "[a [b _] []]" = .ok [d₁] := by decide +kernel
  have hread₂ : read "(tuple a [b _] (tuple)) x" = .ok [d₂, x] := by decide +kernel
  have hd₁ : d₁ ∈ Datum.subtermsAll [d₁] := List.mem_cons_self
  have hd₂ : d₂ ∈ Datum.subtermsAll [d₂, x] := List.mem_cons_self
  have hx : x ∈ Datum.subtermsAll [d₂, x] :=
    Datum.mem_subtermsAll.mpr ⟨x, by simp, List.mem_cons_self⟩
  have hp : Pattern.ofDatum d₁ = .ok p := rfl
  refine ⟨d₁, d₂, x, p, hread₁, hread₂, hp, rfl, ⟨p, rfl, rfl, ?_⟩, rfl, ?_⟩
  · exact ((eq_of_wholeName_eq hread₁ hread₂ hd₁ hd₂ hp).1 p rfl).1 rfl
  · exact (eq_of_wholeName_eq hread₁ hread₂ hd₁ hx hp).2 rfl "x" ⟨24, 25⟩ rfl

end TraceFront
