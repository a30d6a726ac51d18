import TraceFront.Proofs.Datum.Printing

/-!
# Printed expressions are recognized again

Two expressions have more than one spelling: the enclosing procedure is written `(this)` or `&this`,
and a tuple pattern in round brackets behind the word `tuple` or in square brackets.  The printer
uses the second spelling of each.

* `Datum.canonical`           the datum with these spellings changed, where it stands for an expression;
* `Datum.canonicalPattern`    the same where it stands for a pattern;
* `Expr.shows_canonical`      the canonical datum spells the same expression, and in its printed text;
* `read_legible`              what is read from a source can be printed and read again, apart from
                              fractions and the characters that are shown by their codes.
-/

namespace TraceFront

open Text

/-! ## canonical spellings -/

namespace Datum

mutual

/-- the datum of a pattern with its tuples in square brackets -/
def canonicalPattern : Datum String → Datum String
  | list (head :: ds) s =>
    if head.form? = some .tuple then vector (canonicalPatterns ds) s else list (head :: ds) s
  | vector ds s => vector (canonicalPatterns ds) s
  | d => d

def canonicalPatterns : List (Datum String) → List (Datum String)
  | [] => []
  | d :: ds => d.canonicalPattern :: canonicalPatterns ds

end

mutual

/-- the datum of an expression with `&this` for `(this)` and with its patterns made canonical -/
def canonical : Datum String → Datum String
  | list (head :: ds) s =>
    match head.form?, ds with
    | some .this, [] => symbol Vocabulary.selfReference s
    | some .program, p :: body => list (head :: p.canonicalPattern :: canonicalAll body) s
    | some .define, [p, v] => list [head, p.canonicalPattern, v.canonical] s
    | _, ds => list (head.canonical :: canonicalAll ds) s
  | d => d

def canonicalAll : List (Datum String) → List (Datum String)
  | [] => []
  | d :: ds => d.canonical :: canonicalAll ds

end

theorem canonicalPatterns_eq_map (ds : List (Datum String)) :
    canonicalPatterns ds = ds.map canonicalPattern := by
  induction ds with
  | nil => rfl
  | cons d ds ih => rw [canonicalPatterns, ih, List.map_cons]

theorem canonicalAll_eq_map (ds : List (Datum String)) : canonicalAll ds = ds.map canonical := by
  induction ds with
  | nil => rfl
  | cons d ds ih => rw [canonicalAll, ih, List.map_cons]

theorem exists_symbol_of_form? {d : Datum String} {f : SpecialForm} (h : d.form? = some f) :
    ∃ s, d = symbol f.word s := by
  cases d with
  | symbol n s => exact ⟨s, by rw [SpecialForm.ofWord?_eq_some_iff.mp h]⟩
  | literal l s => cases h
  | list ds s => cases h
  | vector ds s => cases h

theorem canonical_of_form? {d : Datum String} {f : SpecialForm} (h : d.form? = some f) :
    d.canonical = d := by
  obtain ⟨s, rfl⟩ := exists_symbol_of_form? h
  rfl

theorem render_of_form? {d : Datum String} {f : SpecialForm} (h : d.form? = some f) :
    d.render = f.word := by
  obtain ⟨s, rfl⟩ := exists_symbol_of_form? h
  rfl

/-- nothing but functions, definitions and `(this)` is treated in a way of its own -/
theorem canonical_list {head : Datum String} (hthis : head.form? ≠ some .this)
    (hprogram : head.form? ≠ some .program) (hdefine : head.form? ≠ some .define)
    (ds : List (Datum String)) (s : Span) :
    (list (head :: ds) s).canonical = list (head.canonical :: canonicalAll ds) s := by
  rw [canonical.eq_def]
  dsimp only
  split
  · rename_i hf
    exact absurd hf hthis
  · rename_i hf
    exact absurd hf hprogram
  · rename_i hf
    exact absurd hf hdefine
  · rfl

theorem canonical_form {head : Datum String} {f : SpecialForm} (hf : head.form? = some f)
    (h : f ≠ .this ∧ f ≠ .program ∧ f ≠ .define) (ds : List (Datum String)) (s : Span) :
    (list (head :: ds) s).canonical = list (head :: canonicalAll ds) s := by
  obtain ⟨hthis, hprogram, hdefine⟩ := h
  rw [canonical_list (by simpa [hf] using hthis) (by simpa [hf] using hprogram)
    (by simpa [hf] using hdefine), canonical_of_form? hf]

/-- an operator does not become the word of a form -/
theorem form?_canonical {d : Datum String} (h : d.form? = none) : d.canonical.form? = none := by
  cases d with
  | literal l s => rfl
  | symbol n s => exact h
  | vector ds s => rfl
  | list ds s =>
    cases ds with
    | nil => rfl
    | cons head ds =>
      unfold canonical
      split
      · rfl
      · rfl
      · rfl
      · rfl

end Datum

/-! ## recognition of canonical spellings -/

namespace Pattern

/-- the datum spells the pattern, and as it is printed -/
structure Shows (d : Datum String) (p : Pattern String) : Prop where
  recognized : ofDatum d = .ok p
  text : d.render = p.render

/-- the datums spell the patterns, and as they are printed -/
structure ShowsAll (ds : List (Datum String)) (ps : List (Pattern String)) : Prop where
  recognized : ofDatums ds = .ok ps
  text : Datum.renderAll ds = renderAll ps

theorem showsAll_canonical {ds : List (Datum String)}
    (h : ∀ d ∈ ds, ∀ {p}, ofDatum d = .ok p → Shows d.canonicalPattern p) {ps : List (Pattern String)}
    (hps : ofDatums ds = .ok ps) : ShowsAll (Datum.canonicalPatterns ds) ps := by
  induction ds generalizing ps with
  | nil =>
    cases hps
    exact ⟨rfl, rfl⟩
  | cons d ds ih =>
    obtain ⟨hd, hds⟩ := List.forall_mem_cons.mp h
    rw [ofDatums] at hps
    obtain ⟨p, hp, hps⟩ := bind_eq_ok hps
    obtain ⟨ps', hps', hps⟩ := bind_eq_ok hps
    cases hps
    have hall := ih hds hps'
    constructor
    · rw [Datum.canonicalPatterns, ofDatums, (hd hp).recognized, hall.recognized]
      rfl
    · rw [Datum.canonicalPatterns, Datum.renderAll, renderAll, (hd hp).text, hall.text]

theorem ShowsAll.vector {ds : List (Datum String)} {ps : List (Pattern String)} (h : ShowsAll ds ps)
    (s : Span) : Shows (.vector ds s) (.tuple ps) := by
  constructor
  · rw [ofDatum, h.recognized]
    rfl
  · rw [Datum.render, h.text, render]

theorem shows_canonical {d : Datum String} {p : Pattern String} (h : ofDatum d = .ok p) :
    Shows d.canonicalPattern p := by
  induction d using Datum.childInduction generalizing p with
  | step d ih =>
    cases spelled_of_ofDatum h with
    | wildcard s => exact ⟨h, rfl⟩
    | name s ha => exact ⟨h, rfl⟩
    | vector s hps => exact (showsAll_canonical ih hps).vector s
    | tuple s hf hps =>
      rw [Datum.canonicalPattern, if_pos hf]
      exact (showsAll_canonical (fun c hc => ih c (List.mem_cons_of_mem _ hc)) hps).vector s

end Pattern

namespace Expr

/-- the datum spells the expression, and as it is printed -/
structure Shows (d : Datum String) (e : Expr String) : Prop where
  recognized : ofDatum d = .ok e
  text : d.render = e.render

/-- the datums spell the expressions, and as they are printed -/
structure ShowsAll (ds : List (Datum String)) (es : List (Expr String)) : Prop where
  recognized : ofDatums ds = .ok es
  text : Datum.renderAll ds = renderAll es

theorem showsAll_canonical {ds : List (Datum String)}
    (h : ∀ d ∈ ds, ∀ {e}, ofDatum d = .ok e → Shows d.canonical e) {es : List (Expr String)}
    (hes : ofDatums ds = .ok es) : ShowsAll (Datum.canonicalAll ds) es := by
  induction ds generalizing es with
  | nil =>
    cases hes
    exact ⟨rfl, rfl⟩
  | cons d ds ih =>
    obtain ⟨hd, hds⟩ := List.forall_mem_cons.mp h
    rw [ofDatums] at hes
    obtain ⟨e, he, hes⟩ := bind_eq_ok hes
    obtain ⟨es', hes', hes⟩ := bind_eq_ok hes
    cases hes
    have hall := ih hds hes'
    constructor
    · rw [Datum.canonicalAll, ofDatums, (hd he).recognized, hall.recognized]
      rfl
    · rw [Datum.canonicalAll, Datum.renderAll, renderAll, (hd he).text, hall.text]

/-- a list that spells a form, printed with the word of the form in front -/
theorem render_list_of_form? {head : Datum String} {f : SpecialForm} (h : head.form? = some f)
    (ds : List (Datum String)) (s : Span) :
    (Datum.list (head :: ds) s).render = renderForm f (Datum.renderAll ds) := by
  rw [Datum.render, Datum.renderAll, Datum.render_of_form? h, renderForm]

theorem shows_canonical {d : Datum String} {e : Expr String} (h : ofDatum d = .ok e) :
    Shows d.canonical e := by
  induction d using Datum.childInduction generalizing e with
  | step d ih =>
    cases spelled_of_ofDatum h with
    | literal l s => exact ⟨h, rfl⟩
    | self s => exact ⟨h, rfl⟩
    | var s ha => exact ⟨h, rfl⟩
    | apply s hf hhead hds =>
      have hoperator := ih _ List.mem_cons_self hhead
      have hall := showsAll_canonical (fun c hc => ih c (List.mem_cons_of_mem _ hc)) hds
      rw [Datum.canonical_list (by simp [hf]) (by simp [hf]) (by simp [hf])]
      -- the list is still an application: `&this` in front is not the word of a form
      refine ⟨ofDatum_of_spelled (.apply s (Datum.form?_canonical hf) hoperator.recognized
        hall.recognized), ?_⟩
      rw [Datum.render, Datum.renderAll, hoperator.text, hall.text]
      rfl
    | program s hf hp hbody =>
      have hpattern := Pattern.shows_canonical hp
      have hall := showsAll_canonical
        (fun c hc => ih c (List.mem_cons_of_mem _ (List.mem_cons_of_mem _ hc))) hbody
      simp only [Datum.canonical, hf]
      refine ⟨ofDatum_of_spelled (.program s hf hpattern.recognized hall.recognized), ?_⟩
      rw [render_list_of_form? hf, Datum.renderAll, hpattern.text, hall.text]
      rfl
    | ifThen s hf hp ht =>
      have hpredicate := ih _ (by simp [Datum.items]) hp
      have hconsequent := ih _ (by simp [Datum.items]) ht
      rw [Datum.canonical_form hf (by decide)]
      simp only [Datum.canonicalAll]
      refine ⟨ofDatum_of_spelled (.ifThen s hf hpredicate.recognized hconsequent.recognized), ?_⟩
      rw [render_list_of_form? hf, Datum.renderAll, Datum.renderAll, hpredicate.text,
        hconsequent.text]
      rfl
    | ifThenElse s hf hp ht he =>
      have hpredicate := ih _ (by simp [Datum.items]) hp
      have hconsequent := ih _ (by simp [Datum.items]) ht
      have halternative := ih _ (by simp [Datum.items]) he
      rw [Datum.canonical_form hf (by decide)]
      simp only [Datum.canonicalAll]
      refine ⟨ofDatum_of_spelled (.ifThenElse s hf hpredicate.recognized hconsequent.recognized
        halternative.recognized), ?_⟩
      rw [render_list_of_form? hf, Datum.renderAll, Datum.renderAll, Datum.renderAll,
        hpredicate.text, hconsequent.text, halternative.text]
      rfl
    | block s hf hstmts =>
      have hall := showsAll_canonical (fun c hc => ih c (List.mem_cons_of_mem _ hc)) hstmts
      rw [Datum.canonical_form hf (by decide)]
      refine ⟨ofDatum_of_spelled (.block s hf hall.recognized), ?_⟩
      rw [render_list_of_form? hf, hall.text]
      rfl
    | define s hf hp hv =>
      have hpattern := Pattern.shows_canonical hp
      have hvalue := ih _ (by simp [Datum.items]) hv
      simp only [Datum.canonical, hf]
      refine ⟨ofDatum_of_spelled (.define s hf hpattern.recognized hvalue.recognized), ?_⟩
      rw [render_list_of_form? hf, Datum.renderAll, Datum.renderAll, hpattern.text, hvalue.text]
      rfl
    | withAddress s hf ht he =>
      have htag := ih _ (by simp [Datum.items]) ht
      have hinner := ih _ (by simp [Datum.items]) he
      rw [Datum.canonical_form hf (by decide)]
      simp only [Datum.canonicalAll]
      refine ⟨ofDatum_of_spelled (.withAddress s hf htag.recognized hinner.recognized), ?_⟩
      rw [render_list_of_form? hf, Datum.renderAll, Datum.renderAll, htag.text, hinner.text]
      rfl
    | tuple s hf hes =>
      have hall := showsAll_canonical (fun c hc => ih c (List.mem_cons_of_mem _ hc)) hes
      rw [Datum.canonical_form hf (by decide)]
      refine ⟨ofDatum_of_spelled (.tuple s hf hall.recognized), ?_⟩
      rw [render_list_of_form? hf, hall.text]
      rfl
    | this s hf =>
      simp only [Datum.canonical, hf]
      exact ⟨rfl, rfl⟩
    | splice s hf he =>
      have hinner := ih _ (by simp [Datum.items]) he
      rw [Datum.canonical_form hf (by decide)]
      simp only [Datum.canonicalAll]
      refine ⟨ofDatum_of_spelled (.splice s hf hinner.recognized), ?_⟩
      rw [render_list_of_form? hf, Datum.renderAll, hinner.text]
      rfl
    | unquote s hf he =>
      have hinner := ih _ (by simp [Datum.items]) he
      rw [Datum.canonical_form hf (by decide)]
      simp only [Datum.canonicalAll]
      refine ⟨ofDatum_of_spelled (.unquote s hf hinner.recognized), ?_⟩
      rw [render_list_of_form? hf, Datum.renderAll, hinner.text]
      rfl

end Expr

/-! ## legible datums -/

theorem plainSymbol_word (f : SpecialForm) : PlainSymbol f.word := by
  cases f
  all_goals
    refine ⟨⟨by decide, List.all_eq_true.mp (by decide), by decide, ?_, by decide⟩,
      by decide, by decide, by decide⟩
    simp [SpecialForm.word]

theorem plainSymbol_selfReference : PlainSymbol Vocabulary.selfReference := by
  refine ⟨⟨by decide, List.all_eq_true.mp (by decide), by decide, ?_, by decide⟩,
    by decide, by decide, by decide⟩
  simp [Vocabulary.selfReference]

theorem ReadSymbol.plain {n : String} (h : ReadSymbol n) : PlainSymbol n := by
  rcases h with hreserved | hplain
  · obtain ⟨f, hf⟩ := Option.isSome_iff_exists.mp hreserved
    rw [← SpecialForm.ofWord?_eq_some_iff.mp hf]
    exact plainSymbol_word f
  · exact hplain

namespace Datum

theorem Legible.canonicalPattern {d : Datum String} (h : d.Legible) :
    d.canonicalPattern.Legible := by
  induction d using childInduction with
  | step d ih =>
    have all : ∀ {ds}, (∀ c ∈ ds, c ∈ d.items) → ∀ c ∈ canonicalPatterns ds, c.Legible := by
      intro ds hds
      rw [canonicalPatterns_eq_map]
      exact List.forall_mem_map.mpr fun c hc => ih c (hds c hc) (h.item (hds c hc))
    cases d with
    | literal l s => exact h
    | symbol n s => exact h
    | vector ds s => exact legible_bracket .square (all fun c hc => hc) s
    | list ds s =>
      cases ds with
      | nil => exact h
      | cons head ds =>
        rw [Datum.canonicalPattern]
        split
        · exact legible_bracket .square (all fun c hc => List.mem_cons_of_mem _ hc) s
        · exact h

theorem Legible.canonical {d : Datum String} (h : d.Legible) : d.canonical.Legible := by
  induction d using childInduction with
  | step d ih =>
    have all : ∀ {ds}, (∀ c ∈ ds, c ∈ d.items) → ∀ c ∈ canonicalAll ds, c.Legible := by
      intro ds hds
      rw [canonicalAll_eq_map]
      exact List.forall_mem_map.mpr fun c hc => ih c (hds c hc) (h.item (hds c hc))
    cases d with
    | literal l s => exact h
    | symbol n s => exact h
    | vector ds s => exact h
    | list ds s =>
      cases ds with
      | nil => exact h
      | cons head ds =>
        have hhead : head.Legible := h.item List.mem_cons_self
        rw [Datum.canonical.eq_def]
        dsimp only
        split
        · exact ⟨List.forall_mem_singleton.mpr plainSymbol_selfReference, List.forall_mem_nil _⟩
        · rename_i p body _
          have hpattern : p.Legible := h.item (by simp [items])
          refine legible_bracket .round (List.forall_mem_cons.mpr ⟨hhead,
            List.forall_mem_cons.mpr ⟨hpattern.canonicalPattern, all ?_⟩⟩) s
          simp +contextual [items]
        · rename_i p v _
          have hpattern : p.Legible := h.item (by simp [items])
          refine legible_bracket .round (List.forall_mem_cons.mpr ⟨hhead,
            List.forall_mem_cons.mpr ⟨hpattern.canonicalPattern, ?_⟩⟩) s
          exact List.forall_mem_singleton.mpr (ih v (by simp [items]) (h.item (by simp [items])))
        · refine legible_bracket .round (List.forall_mem_cons.mpr ⟨ih head List.mem_cons_self hhead,
            all fun c hc => List.mem_cons_of_mem _ hc⟩) s

end Datum

/-- the keyword of an atom is that of its token -/
theorem kind_of_keyword {t : Token} {d : Datum String} (hd : t.atom? = some d) {k : String}
    (hk : .keyword k ∈ d.literals) : t.kind = .keyword k := by
  rcases Token.atom?_cases hd with ⟨l, hkind, rfl⟩ | ⟨n, _, _, _, _, rfl⟩
  · obtain rfl := List.mem_singleton.mp hk
    exact hkind
  · cases hk

theorem read_keywords {source : String} {ds : List (Datum String)} (h : read source = .ok ds) :
    ∀ d ∈ ds, ∀ k, .keyword k ∈ d.literals → KeywordText k.toList := by
  obtain ⟨ts, hlex, hread⟩ := read_eq_ok h
  refine forall_mem_readTokens ?_ ?_ ?_ hread
  · intro shape ds span hds k hk
    have hall : .keyword k ∈ Datum.literalsAll ds := by
      cases shape with
      | round => exact hk
      | square => exact hk
    obtain ⟨d, hd, hkd⟩ := Datum.mem_literalsAll.mp hall
    exact hds d hd k hkd
  · intro mark start d hd k hk
    simp only [Sigil.wrap, Datum.headed, Datum.literals, Datum.literalsAll, List.append_nil,
      List.nil_append] at hk
    exact hd k hk
  · intro t ht d hd k hk
    exact lex_keywords hlex t ht k (kind_of_keyword hd hk)

/-- the datum can be read from its text, but for the characters that are shown by their codes -/
structure Datum.Writable (d : Datum String) : Prop where
  symbols : ∀ n ∈ d.symbols, PlainSymbol n
  no_float : ∀ x, .float x ∉ d.literals
  keywords : ∀ k, .keyword k ∈ d.literals → KeywordText k.toList

theorem Datum.Writable.legible {d : Datum String} (h : d.Writable)
    (hcode : ∀ s, .str s ∈ d.literals → ∀ c ∈ s.toList, needsCode c = false) : d.Legible := by
  refine ⟨h.symbols, ?_⟩
  intro l hl
  cases l with
  | nil => trivial
  | bool b => trivial
  | int n => trivial
  | float x => exact h.no_float x hl
  | str s => exact hcode s hl
  | keyword k => exact h.keywords k hl

theorem read_writable {source : String} {ds : List (Datum String)} (h : read source = .ok ds)
    {d : Datum String}
    (hd : d ∈ Datum.subtermsAll ds) (hfloat : ∀ x, .float x ∉ d.literals) : d.Writable := by
  obtain ⟨e, he, hde⟩ := Datum.mem_subtermsAll.mp hd
  refine ⟨?_, hfloat, ?_⟩
  · intro n hn
    exact (read_symbols h e he n (Datum.symbols_of_mem_subterms hde hn)).plain
  · intro k hk
    exact read_keywords h e he k (Datum.literals_of_mem_subterms hde hk)

/-- what is read from a source is legible, fractions and coded characters apart -/
theorem read_legible {source : String} {ds : List (Datum String)} (h : read source = .ok ds)
    {d : Datum String} (hd : d ∈ Datum.subtermsAll ds) (hfloat : ∀ x, .float x ∉ d.literals)
    (hcode : ∀ s, .str s ∈ d.literals → ∀ c ∈ s.toList, needsCode c = false) : d.Legible :=
  (read_writable h hd hfloat).legible hcode

/-! ## the round trip -/

namespace Expr

/-- **Printing and reading are inverse.**  The text of an expression that was read from a source holds
one datum, the canonical spelling of the datum that it was read from, and this datum spells the
expression again. -/
theorem read_render_of_read {source : String} {ds : List (Datum String)} (h : read source = .ok ds)
    {d : Datum String} (hd : d ∈ Datum.subtermsAll ds) {e : Expr String} (he : ofDatum d = .ok e)
    (hfloat : ∀ x, .float x ∉ d.literals)
    (hcode : ∀ s, .str s ∈ d.literals → ∀ c ∈ s.toList, needsCode c = false) :
    ∃ d', read e.render = .ok [d'] ∧ d'.unplaced = d.canonical.unplaced ∧
      ∃ e', ofDatum d' = .ok e' ∧ e'.unplaced = e.unplaced := by
  have hlegible : d.canonical.Legible := (read_legible h hd hfloat hcode).canonical
  have hshows : Shows d.canonical e := shows_canonical he
  obtain ⟨d', hread, hunplaced⟩ := Datum.read_render hlegible
  rw [hshows.text] at hread
  exact ⟨d', hread, hunplaced, ofDatum_of_unplaced_eq hunplaced hshows.recognized⟩

/-- both spellings change, and a quote in a string is escaped -/
theorem read_render_of_tuple_and_this :
    ∃ (d : Datum String) (e : Expr String), read "(define (tuple a _) (f (this) \"\\\"\" ~x))" = .ok [d] ∧
      ofDatum d = .ok e ∧ e.render = "(define [a _] (f &this \"\\\"\" (unquote x)))" ∧
      ∃ d', read e.render = .ok [d'] ∧ d'.unplaced = d.canonical.unplaced ∧
        ∃ e', ofDatum d' = .ok e' ∧ e'.unplaced = e.unplaced := by
  let d : Datum String := .list [.symbol "define" ⟨1, 7⟩,
    .list [.symbol "tuple" ⟨9, 14⟩, .symbol "a" ⟨15, 16⟩, .symbol "_" ⟨17, 18⟩] ⟨8, 19⟩,
    .list [.symbol "f" ⟨21, 22⟩, .list [.symbol "this" ⟨24, 28⟩] ⟨23, 29⟩,
      .literal (.str "\"") ⟨30, 34⟩,
      .list [.symbol "unquote" ⟨35, 35⟩, .symbol "x" ⟨36, 37⟩] ⟨35, 37⟩] ⟨20, 38⟩] ⟨0, 39⟩
  let e : Expr String := .define (.tuple [.name "a", .wildcard])
    (.apply (.var "f" ⟨21, 22⟩) [.this ⟨23, 29⟩, .literal (.str "\"") ⟨30, 34⟩,
      .unquote (.var "x" ⟨36, 37⟩) ⟨35, 37⟩] ⟨20, 38⟩) ⟨0, 39⟩
  have hread : read "(define (tuple a _) (f (this) \"\\\"\" ~x))" = .ok [d] := by decide +kernel
  have he : ofDatum d = .ok e := rfl
  have hd : d ∈ Datum.subtermsAll [d] := List.mem_cons_self
  have hliterals : d.literals = [.str "\""] := rfl
  have hfloat : ∀ x, .float x ∉ d.literals := by
    intro x hx
    rw [hliterals] at hx
    cases List.mem_singleton.mp hx
  have hcode : ∀ s, .str s ∈ d.literals → ∀ c ∈ s.toList, needsCode c = false := by
    intro s hs
    rw [hliterals] at hs
    cases List.mem_singleton.mp hs
    intro c hc
    cases List.mem_singleton.mp hc
    decide
  exact ⟨d, e, hread, he, by decide, read_render_of_read hread hd he hfloat hcode⟩

end Expr

end TraceFront
