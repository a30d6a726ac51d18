import TraceFront.Datum.Reader

/-!
# What is true of every datum that is read

The reader holds finished datums in two places, inside open brackets and at the top level.  A
property of datums that single atoms have, and that passes to brackets and to sigils around datums
that have it, therefore holds of everything the reader holds, and in the end of everything it
returns.

* `Datum.childInduction`    what passes from the items of a datum to the datum holds everywhere;
* `Datum.symbols`           the symbols in a datum, at any depth, and `Datum.literals` its literals;
* `Datum.subterms`          the datums in a datum, at any depth;
* `Token.atom?_cases`       the atom that a token can be;
* `Reader.step_cases`       what one token does to the reader;
* `Reader.Holds`            every datum in the reader has a property;
* `Reader.Holds.step`       one token keeps it, and `Reader.Holds.steps` a whole run;
* `forall_mem_readTokens`   so the datums that are read have the property;
* `forall_symbols_readTokens`   and the symbols in them one that words of forms and the symbols of
                            tokens have.
-/

set_option linter.unusedSectionVars false

namespace TraceFront

namespace Datum

/-! ## inside a datum -/

/-- the datums directly inside -/
def items : Datum String → List (Datum String)
  | literal _ _ => []
  | symbol _ _ => []
  | list ds _ => ds
  | vector ds _ => ds

section
variable {motive : Datum String → Prop} (step : ∀ d, (∀ c ∈ d.items, motive c) → motive d)
include step

mutual

theorem childInduction : ∀ d, motive d
  | literal _ _ => step _ (List.forall_mem_nil _)
  | symbol _ _ => step _ (List.forall_mem_nil _)
  | list ds _ => step _ (childInductionAll ds)
  | vector ds _ => step _ (childInductionAll ds)

theorem childInductionAll : ∀ ds : List (Datum String), ∀ d ∈ ds, motive d
  | [] => List.forall_mem_nil _
  | d :: ds => List.forall_mem_cons.mpr ⟨childInduction d, childInductionAll ds⟩

end

end

mutual

/-- the symbols in a datum, from left to right -/
def symbols : Datum String → List String
  | literal _ _ => []
  | symbol n _ => [n]
  | list ds _ => symbolsAll ds
  | vector ds _ => symbolsAll ds

def symbolsAll : List (Datum String) → List String
  | [] => []
  | d :: ds => d.symbols ++ symbolsAll ds

end

theorem mem_symbolsAll {n : String} {ds : List (Datum String)} :
    n ∈ symbolsAll ds ↔ ∃ d ∈ ds, n ∈ d.symbols := by
  induction ds with
  | nil => simp [symbolsAll]
  | cons d ds ih => simp [symbolsAll, ih]

theorem symbols_of_mem_items {c d : Datum String} (hc : c ∈ d.items) {n : String}
    (hn : n ∈ c.symbols) : n ∈ d.symbols := by
  cases d with
  | literal l s => cases hc
  | symbol m s => cases hc
  | list ds s => exact mem_symbolsAll.mpr ⟨c, hc, hn⟩
  | vector ds s => exact mem_symbolsAll.mpr ⟨c, hc, hn⟩

mutual

/-- the literals in a datum, from left to right -/
def literals : Datum String → List (Literal String)
  | literal l _ => [l]
  | symbol _ _ => []
  | list ds _ => literalsAll ds
  | vector ds _ => literalsAll ds

def literalsAll : List (Datum String) → List (Literal String)
  | [] => []
  | d :: ds => d.literals ++ literalsAll ds

end

theorem mem_literalsAll {l : Literal String} {ds : List (Datum String)} :
    l ∈ literalsAll ds ↔ ∃ d ∈ ds, l ∈ d.literals := by
  induction ds with
  | nil => simp [literalsAll]
  | cons d ds ih => simp [literalsAll, ih]

theorem literals_of_mem_items {c d : Datum String} (hc : c ∈ d.items) {l : Literal String}
    (hl : l ∈ c.literals) : l ∈ d.literals := by
  cases d with
  | literal m s => cases hc
  | symbol n s => cases hc
  | list ds s => exact mem_literalsAll.mpr ⟨c, hc, hl⟩
  | vector ds s => exact mem_literalsAll.mpr ⟨c, hc, hl⟩

mutual

/-- the datum and all datums inside it, the outer ones first -/
def subterms : Datum String → List (Datum String)
  | literal l s => [literal l s]
  | symbol n s => [symbol n s]
  | list ds s => list ds s :: subtermsAll ds
  | vector ds s => vector ds s :: subtermsAll ds

def subtermsAll : List (Datum String) → List (Datum String)
  | [] => []
  | d :: ds => d.subterms ++ subtermsAll ds

end

theorem mem_subtermsAll {c : Datum String} {ds : List (Datum String)} :
    c ∈ subtermsAll ds ↔ ∃ d ∈ ds, c ∈ d.subterms := by
  induction ds with
  | nil => simp [subtermsAll]
  | cons d ds ih => simp [subtermsAll, ih]

theorem mem_subterms {c d : Datum String} :
    c ∈ d.subterms ↔ c = d ∨ ∃ b ∈ d.items, c ∈ b.subterms := by
  cases d with
  | literal l s => simp [subterms, items]
  | symbol n s => simp [subterms, items]
  | list ds s => rw [subterms, List.mem_cons, mem_subtermsAll, items]
  | vector ds s => rw [subterms, List.mem_cons, mem_subtermsAll, items]

theorem symbols_of_mem_subterms {c d : Datum String} (hc : c ∈ d.subterms) {n : String}
    (hn : n ∈ c.symbols) : n ∈ d.symbols := by
  induction d using childInduction with
  | step d ih =>
    rcases mem_subterms.mp hc with rfl | ⟨b, hb, hcb⟩
    · exact hn
    · exact symbols_of_mem_items hb (ih b hb hcb)

theorem literals_of_mem_subterms {c d : Datum String} (hc : c ∈ d.subterms) {l : Literal String}
    (hl : l ∈ c.literals) : l ∈ d.literals := by
  induction d using childInduction with
  | step d ih =>
    rcases mem_subterms.mp hc with rfl | ⟨b, hb, hcb⟩
    · exact hl
    · exact literals_of_mem_items hb (ih b hb hcb)

end Datum

/-- the datum of a token that is an atom -/
def Token.atom? (t : Token) : Option (Datum String) :=
  match t.kind with
  | .str s => some (.literal (.str s) t.span)
  | .int n => some (.literal (.int n) t.span)
  | .float x => some (.literal (.float x) t.span)
  | .keyword k => some (.literal (.keyword k) t.span)
  | .symbol s => some (.ofSymbol s t.span)
  | _ => none

/-- the token that a literal is read from -/
def Literal.kind : Literal String → TokenKind
  | .nil => .symbol "nil"
  | .bool b => .symbol (boolText b)
  | .int n => .int n
  | .float x => .float x
  | .str s => .str s
  | .keyword k => .keyword k

/-- an atom is a literal, or a symbol other than the three that are literals -/
theorem Token.atom?_cases {t : Token} {d : Datum String} (h : t.atom? = some d) :
    (∃ l : Literal String, t.kind = l.kind ∧ d = .literal l t.span) ∨
    ∃ n, t.kind = .symbol n ∧ n ≠ "nil" ∧ n ≠ "true" ∧ n ≠ "false" ∧ d = .symbol n t.span := by
  unfold Token.atom? at h
  split at h
  case h_1 s hk =>
    cases h
    exact .inl ⟨.str s, hk, rfl⟩
  case h_2 n hk =>
    cases h
    exact .inl ⟨.int n, hk, rfl⟩
  case h_3 x hk =>
    cases h
    exact .inl ⟨.float x, hk, rfl⟩
  case h_4 k hk =>
    cases h
    exact .inl ⟨.keyword k, hk, rfl⟩
  case h_5 n hk =>
    cases h
    unfold Datum.ofSymbol
    split
    · rename_i hn
      exact .inl ⟨.nil, by rw [hk, hn]; rfl, rfl⟩
    split
    · rename_i hn
      exact .inl ⟨.bool true, by rw [hk, hn]; rfl, rfl⟩
    split
    · rename_i hn
      exact .inl ⟨.bool false, by rw [hk, hn]; rfl, rfl⟩
    · rename_i h₁ h₂ h₃
      exact .inr ⟨n, hk, h₁, h₂, h₃, rfl⟩
  case h_6 => cases h

/-- the finished datums in an unfinished term -/
def Unfinished.items : Unfinished String → List (Datum String)
  | bracket _ _ ds => ds
  | sigil _ _ => []

namespace Reader

/-! ## one token -/

/-- a closing bracket is taken only if it closes the innermost unfinished term -/
theorem close_cases {r r' : Reader String} {shape : Delimiter} {span : Span}
    (h : r.close shape span = .ok r') :
    ∃ start ds us, r.stack = .bracket shape start ds :: us ∧
      r' = place r.done (shape.datum ds.reverse ⟨start, span.stop⟩) us := by
  unfold close at h
  split at h
  · cases h
  · cases h
  · rename_i shape' start ds us hstack
    split at h
    · rename_i hshape
      cases h
      rw [hshape]
      exact ⟨start, ds, us, hstack, rfl⟩
    · cases h

/-- a token starts an unfinished term, brings an atom, or closes a bracket -/
theorem step_cases {r r' : Reader String} {t : Token} (h : r.step t = .ok r') :
    (∃ shape, t.kind = .opening shape ∧ r' = r.push (.bracket shape t.span.start [])) ∨
    (∃ mark, t.kind = .sigil mark ∧ r' = r.push (.sigil mark t.span.start)) ∨
    (∃ d, t.atom? = some d ∧ r' = r.atom d) ∨
    (∃ shape start ds us, t.kind = .closing shape ∧ r.stack = .bracket shape start ds :: us ∧
      r' = place r.done (shape.datum ds.reverse ⟨start, t.span.stop⟩) us) := by
  unfold step at h
  split at h
  · rename_i shape hk
    cases h
    exact .inl ⟨shape, hk, rfl⟩
  · rename_i shape hk
    obtain ⟨start, ds, us, hstack, hr⟩ := close_cases h
    exact .inr (.inr (.inr ⟨shape, start, ds, us, hk, hstack, hr⟩))
  · rename_i mark hk
    cases h
    exact .inr (.inl ⟨mark, hk, rfl⟩)
  all_goals
    rename_i hk
    cases h
    refine .inr (.inr (.inl ⟨_, ?_, rfl⟩))
    simp only [Token.atom?, hk]

/-! ## a property of all datums in the reader -/

/-- every finished datum in the reader has the property -/
structure Holds (Q : Datum String → Prop) (r : Reader String) : Prop where
  stack : ∀ u ∈ r.stack, ∀ d ∈ u.items, Q d
  done : ∀ d ∈ r.done, Q d

theorem holds_empty (Q : Datum String → Prop) : Reader.empty.Holds Q :=
  ⟨List.forall_mem_nil _, List.forall_mem_nil _⟩

section
variable {Q : Datum String → Prop}
  (bracket : ∀ (shape : Delimiter) (ds : List (Datum String)) (span : Span), (∀ d ∈ ds, Q d) →
    Q (shape.datum ds span))
  (sigil : ∀ (mark : Sigil) (start : Nat) (d : Datum String), Q d → Q (mark.wrap start d))
include sigil

theorem Holds.place {done : List (Datum String)} {us : List (Unfinished String)} :
    ∀ {d : Datum String}, Holds Q ⟨us, done⟩ → Q d → Holds Q (place done d us) := by
  induction us with
  | nil =>
    intro d hr hd
    exact ⟨List.forall_mem_nil _, List.forall_mem_cons.mpr ⟨hd, hr.done⟩⟩
  | cons u us ih =>
    intro d hr hd
    obtain ⟨hu, hus⟩ := List.forall_mem_cons.mp hr.stack
    cases u with
    | sigil mark start => exact ih ⟨hus, hr.done⟩ (sigil mark start d hd)
    | bracket shape start ds =>
      exact ⟨List.forall_mem_cons.mpr ⟨List.forall_mem_cons.mpr ⟨hd, hu⟩, hus⟩, hr.done⟩

include bracket

theorem Holds.step {r r' : Reader String} {t : Token} (hr : r.Holds Q)
    (atom : ∀ d, t.atom? = some d → Q d) (h : r.step t = .ok r') : r'.Holds Q := by
  rcases step_cases h with ⟨shape, _, rfl⟩ | ⟨mark, _, rfl⟩ | ⟨d, hd, rfl⟩ |
    ⟨shape, start, ds, us, _, hstack, rfl⟩
  · exact ⟨List.forall_mem_cons.mpr ⟨List.forall_mem_nil _, hr.stack⟩, hr.done⟩
  · exact ⟨List.forall_mem_cons.mpr ⟨List.forall_mem_nil _, hr.stack⟩, hr.done⟩
  · exact Holds.place sigil hr (atom d hd)
  · have hs := hr.stack
    rw [hstack] at hs
    obtain ⟨hu, hus⟩ := List.forall_mem_cons.mp hs
    refine Holds.place sigil ⟨hus, hr.done⟩ (bracket shape _ _ ?_)
    intro d hd
    exact hu d (List.mem_reverse.mp hd)

theorem Holds.steps {ts : List Token} (atom : ∀ t ∈ ts, ∀ d, t.atom? = some d → Q d) :
    ∀ {r r' : Reader String}, r.Holds Q → r.steps ts = .ok r' → r'.Holds Q := by
  induction ts with
  | nil =>
    intro r r' hr h
    cases h
    exact hr
  | cons t ts ih =>
    intro r r' hr h
    obtain ⟨ht, hts⟩ := List.forall_mem_cons.mp atom
    rw [Reader.steps] at h
    split at h
    · rename_i r₁ h₁
      exact ih hts (Holds.step bracket sigil hr ht h₁) h
    · cases h

end

end Reader

/-- what atoms have, and what passes to brackets and sigils, every datum that is read has -/
theorem forall_mem_readTokens {Q : Datum String → Prop}
    (bracket : ∀ (shape : Delimiter) (ds : List (Datum String)) (span : Span), (∀ d ∈ ds, Q d) →
      Q (shape.datum ds span))
    (sigil : ∀ (mark : Sigil) (start : Nat) (d : Datum String), Q d → Q (mark.wrap start d))
    {ts : List Token} (atom : ∀ t ∈ ts, ∀ d, t.atom? = some d → Q d) {ds : List (Datum String)}
    (h : readTokens ts = .ok ds) : ∀ d ∈ ds, Q d := by
  unfold readTokens at h
  split at h
  · rename_i r hr
    have hold := Reader.Holds.steps bracket sigil atom (Reader.holds_empty Q) hr
    unfold Reader.finish at h
    split at h
    · cases h
      intro d hd
      exact hold.done d (List.mem_reverse.mp hd)
    · cases h
  · cases h

/-! ## symbols -/

/-- the symbol of an atom is that of its token, and none of the three that are literals -/
theorem kind_of_atom? {t : Token} {d : Datum String} (hd : t.atom? = some d) {n : String}
    (hn : n ∈ d.symbols) : t.kind = .symbol n ∧ n ≠ "nil" ∧ n ≠ "true" ∧ n ≠ "false" := by
  rcases Token.atom?_cases hd with ⟨l, _, rfl⟩ | ⟨m, hk, h₁, h₂, h₃, rfl⟩
  · cases hn
  · obtain rfl := List.mem_singleton.mp hn
    exact ⟨hk, h₁, h₂, h₃⟩

theorem forall_symbols_readTokens {P : String → Prop} (word : ∀ f : SpecialForm, P f.word)
    {ts : List Token} (atom : ∀ t ∈ ts, ∀ d, t.atom? = some d → ∀ n ∈ d.symbols, P n)
    {ds : List (Datum String)} (h : readTokens ts = .ok ds) : ∀ d ∈ ds, ∀ n ∈ d.symbols, P n := by
  refine forall_mem_readTokens ?_ ?_ atom h
  · intro shape ds span hds n hn
    have hall : n ∈ Datum.symbolsAll ds := by
      cases shape with
      | round => exact hn
      | square => exact hn
    obtain ⟨d, hd, hnd⟩ := Datum.mem_symbolsAll.mp hall
    exact hds d hd n hnd
  · -- a sigil brings the word of its form
    intro mark start d hd n hn
    simp only [Sigil.wrap, Datum.headed, Datum.symbols, Datum.symbolsAll, List.append_nil,
      List.mem_append, List.mem_singleton] at hn
    rcases hn with rfl | hn
    · exact word _
    · exact hd n hn

end TraceFront
