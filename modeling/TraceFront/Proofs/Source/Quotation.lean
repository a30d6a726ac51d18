import TraceFront.Proofs.Core.Warnings
import TraceFront.Proofs.Datum.Slices
import TraceFront.Proofs.Expr.Refusals
import TraceFront.Proofs.Source.Addresses
import TraceFront.Proofs.Source.Printing

/-!
# Diagnostics quote terms of the source

The reader puts a word of no width in front of the term of a sigil.  Recognition looks at that word
and never at anything inside it, so no diagnostic is about it.

* `exists_symbol_token`          a symbol that is a term is a token of the source;
* `covers_of_symbol_term`        so its place has its name in the source,
* `nonempty_of_term`             and no term is without width;
* `FormError.Shows`              what an error of recognition says about a datum;
* `Datum.Defines`                the list that a definition is spelled by;
* `exists_definition_datum`      every definition inside the expressions of a source has one;
* `Warned`                       the warnings about a source.
-/

namespace TraceFront

open Text

/-! ## terms of a source -/

/-- a symbol that is a term comes from a token, and not from a sigil -/
theorem exists_symbol_token {ts : List Token} {ds : List (Datum String)}
    (h : readTokens ts = .ok ds) :
    ∀ d ∈ ds, ∀ n s, (Datum.symbol n s).TermOf d → ∃ t ∈ ts, t.kind = .symbol n ∧ t.span = s := by
  refine forall_mem_readTokens ?_ ?_ ?_ h
  · intro shape ds span hds n s hterm
    generalize hd : shape.datum ds span = d at hterm
    cases hterm with
    | self => cases shape <;> cases hd
    | part hb hterm =>
      have hb := d.parts_subset_items hb
      rw [← hd] at hb
      cases shape with
      | round => exact hds _ hb n s hterm
      | square => exact hds _ hb n s hterm
  · -- the word of a sigil is not among the parts of the list
    intro mark start d hd n s hterm
    generalize hw : mark.wrap start d = w at hterm
    cases hterm with
    | self => cases hw
    | part hb hterm =>
      have hform : (Datum.symbol mark.form.word ⟨start, start⟩).form? = some mark.form :=
        SpecialForm.ofWord?_word _
      rw [← hw, Sigil.wrap, Datum.headed, Datum.parts_of_form? hform] at hb
      obtain rfl := List.mem_singleton.mp hb
      exact hd n s hterm
  · intro t ht d hd n s hterm
    rcases Token.atom?_cases hd with ⟨l, _, rfl⟩ | ⟨m, hk, _, _, _, rfl⟩
    · cases hterm with
      | part hb _ => cases hb
    · cases hterm with
      | self => exact ⟨t, ht, hk, rfl⟩
      | part hb _ => cases hb

section
variable {source : String} (hsize : source.utf8ByteSize < 2 ^ 32)
include hsize

theorem covers_of_symbol_token {ts : List Token} (hlex : lex source = .ok ts) {t : Token}
    (ht : t ∈ ts) {n : String} (hk : t.kind = .symbol n) : t.span.Covers source n := by
  obtain ⟨before, text, after, hcs, hspells, _, hspan⟩ := exists_text_of_mem hsize hlex ht
  have hn : n = String.ofList text := by
    rw [hk] at hspells
    cases hspells with
    | atom hatom => exact (classify_symbol (hatom.classified ⟨0, 0⟩)).1
  rw [hn]
  exact Span.covers_of_toList hcs (by rw [hspan]) (by rw [hspan])

variable {ds : List (Datum String)} (hread : read source = .ok ds) {d : Datum String} (hd : d ∈ ds)
include hread hd

theorem covers_of_symbol_term {n : String} {s : Span} (h : (Datum.symbol n s).TermOf d) :
    s.Covers source n := by
  obtain ⟨ts, hlex, hreads⟩ := read_eq_ok hread
  obtain ⟨t, ht, hk, rfl⟩ := exists_symbol_token hreads d hd n s h
  exact covers_of_symbol_token hsize hlex ht hk

theorem nonempty_of_term {c : Datum String} (h : c.TermOf d) : c.span.start < c.span.stop := by
  obtain ⟨ts, hlex, hreads⟩ := read_eq_ok hread
  obtain ⟨ps, rfl, rfl⟩ := exists_phrases hreads
  rcases Phrase.faithfulAll hsize hlex ps (List.infix_refl _) d hd c h.mem_subterms with
    ⟨mark, start, term, _, rfl, _⟩ | hfaithful
  · obtain ⟨t, ht, _, hspan⟩ := exists_symbol_token hreads d hd _ _ h
    have hwidth := (inOrder_of_lex hsize hlex).nonempty t ht
    rw [hspan] at hwidth
    exact hwidth
  · exact hfaithful.nonempty

end

/-! ## errors of recognition -/

/-- the error shows the text of the datum, or the name that it reports stands at its place -/
def FormError.Shows (source : String) (d : Datum String) : FormError → Prop
  | malformedExpression term _ _ => term = d.render
  | operandCount _ _ term _ => term = d.render
  | malformedPattern term _ => term = d.render
  | reservedWord name s => s.Covers source name
  | reservedSeparator name s => s.Covers source name
  | wildcardValue s => s.Covers source Vocabulary.wildcard

theorem parse_eq_error {source : String} {ds : List (Datum String)} (hread : read source = .ok ds)
    {e : SourceError} (h : parse source = .error e) :
    ∃ e', e = .form e' ∧ Expr.ofDatums ds = .error e' := by
  rw [parse, hread] at h
  cases hf : Expr.ofDatums ds with
  | ok es =>
    simp only [hf] at h
    cases h
  | error e' =>
    simp only [hf] at h
    cases h
    exact ⟨e', rfl, rfl⟩

theorem shows_of_about {source : String} (hsize : source.utf8ByteSize < 2 ^ 32)
    {ds : List (Datum String)}
    (hread : read source = .ok ds) {c d : Datum String} (hd : d ∈ ds) (hc : c.TermOf d) {e : FormError}
    (h : e.About c) : e.span = c.span ∧ e.Shows source c := by
  cases h with
  | malformedExpression fault => exact ⟨rfl, rfl⟩
  | operandCount form found => exact ⟨rfl, rfl⟩
  | malformedPattern => exact ⟨rfl, rfl⟩
  | reservedWord n s => exact ⟨rfl, covers_of_symbol_term hsize hread hd hc⟩
  | reservedSeparator n s => exact ⟨rfl, covers_of_symbol_term hsize hread hd hc⟩
  | wildcardValue s => exact ⟨rfl, covers_of_symbol_term hsize hread hd hc⟩

/-! ## definitions -/

/-- the datum is the list of the word `define` and two more, and is recognized as a definition of
the pattern `p` -/
def Datum.Defines (d : Datum String) (p : Pattern String) : Prop :=
  ∃ word b c v, d = .list [.symbol SpecialForm.define.word word, b, c] d.span ∧
    Expr.ofDatum d = .ok (.define p v d.span)

theorem defines_of_ofDatum {d : Datum String} {p : Pattern String} {v : Expr String} {s : Span}
    (h : Expr.ofDatum d = .ok (.define p v s)) : s = d.span ∧ d.Defines p := by
  cases Expr.spelled_of_ofDatum h with
  | define s hf _ _ =>
    obtain ⟨word, rfl⟩ := Datum.exists_symbol_of_form? hf
    exact ⟨rfl, word, _, _, v, rfl, h⟩

/-- a definition inside the expressions of a source is spelled by a list of the source -/
theorem exists_definition_datum {source : String} (hsize : source.utf8ByteSize < 2 ^ 32)
    {ds : List (Datum String)} (hread : read source = .ok ds) {es : List (Expr String)}
    (hes : Expr.ofDatums ds = .ok es) {e : Expr String} (he : e ∈ es) {p : Pattern String}
    {v : Expr String} {s : Span}
    (h : .define p v s ∈ e.subterms) :
    ∃ d ∈ Datum.subtermsAll ds, d.span.start < d.span.stop ∧ d.span = s ∧ d.Defines p := by
  obtain ⟨d, hd, hde⟩ := Expr.exists_of_mem_ofDatums hes he
  obtain ⟨c, hc, hdefine⟩ := Expr.exists_spelling hde h
  obtain ⟨rfl, hdefines⟩ := defines_of_ofDatum hdefine
  exact ⟨c, Datum.mem_subtermsAll.mpr ⟨d, hd, hc.mem_subterms⟩, nonempty_of_term hsize hread hd hc,
    rfl, hdefines⟩

/-! ## collisions -/

section
variable [ContentHash]

theorem exists_of_ofExprs_error {o : Options} {es : List (Expr String)} {err : TreeError}
    (h : (Form.ofExprs o es).2 = some err) : ∃ e ∈ es, e.treeWith o.test = .error err := by
  induction es with
  | nil => cases h
  | cons e es ih =>
    rw [Form.ofExprs] at h
    split at h
    · obtain ⟨f, hf, hfe⟩ := ih h
      exact ⟨f, List.mem_cons_of_mem _ hf, hfe⟩
    · rename_i err' herror
      cases h
      unfold Form.ofExpr at herror
      split at herror
      · cases herror
      · rename_i htree
        cases herror
        exact ⟨e, List.mem_cons_self, htree⟩

theorem compile_eq_tree_error {o : Options} {source : String} {err : TreeError}
    (h : compile o source = .error (.tree err)) :
    ∃ es, parse source = .ok es ∧ ∃ e ∈ es, e.treeWith o.test = .error err := by
  unfold compile at h
  split at h
  · cases h
  · rename_i es hparse
    split at h
    · cases h
    · rename_i hforms
      cases h
      exact ⟨es, hparse, exists_of_ofExprs_error (by rw [hforms])⟩

end

/-- a collision is at a definition of the name of its field, whatever the test is -/
theorem Expr.exists_of_fieldCollision {accepts : Node → Bool} {e : Expr String} {n : String}
    {s : Span} (h : e.treeWith accepts = .error (.fieldCollision n s)) :
    ∃ v, define (.name n) v s ∈ e.subterms := by
  have hjudged : Judged accepts e.collisions [e.node] e.node (e.treeWith accepts) := e.judged
  rw [h] at hjudged
  cases hjudged with
  | collided place => exact mem_collisions.mp place

/-! ## warnings -/

namespace Expr

theorem mem_trailingOf {t : TrailingDefinition} {stmts : List (Expr String)}
    (h : t ∈ trailingOf stmts) : ∃ p v, define p v t.span ∈ stmts ∧ t.name = p.wholeName := by
  obtain ⟨stmt, hlast, ht⟩ := List.mem_flatMap.mp h
  have hmem : stmt ∈ stmts := List.mem_of_getLast? (Option.mem_toList.mp hlast)
  cases stmt with
  | define p v s =>
    obtain rfl := List.mem_singleton.mp ht
    exact ⟨p, v, hmem, rfl⟩
  | _ => cases ht

theorem mem_subterms_of_ownStatements {e f g : Expr String} (hf : f ∈ e.subterms)
    (hg : g ∈ f.ownStatements) : g ∈ e.subterms := by
  induction e using childInduction with
  | step e ih =>
    rcases mem_subterms.mp hf with rfl | ⟨c, hc, hfc⟩
    · have hchild : g ∈ f.children := by
        cases f with
        | program p body s => exact hg
        | block stmts s => exact hg
        | _ => cases hg
      exact mem_subterms.mpr (.inr ⟨g, hchild, g.mem_subterms_self⟩)
    · exact mem_subterms.mpr (.inr ⟨c, hc, ih c hc hfc⟩)

theorem exists_of_trailingDefinitions {t : TrailingDefinition} {e : Expr String}
    (h : t ∈ e.trailingDefinitions) :
    ∃ p v, define p v t.span ∈ e.subterms ∧ t.name = p.wholeName := by
  obtain ⟨f, hf, ht⟩ := List.mem_flatMap.mp ((trailing_perm e).mem_iff.mp h)
  obtain ⟨p, v, hstmt, hname⟩ := mem_trailingOf ht
  exact ⟨p, v, mem_subterms_of_ownStatements hf hstmt, hname⟩

theorem exists_of_trailingInBlock {t : TrailingDefinition} {stmts : List (Expr String)}
    (h : t ∈ trailingInBlock stmts) :
    ∃ e ∈ stmts, ∃ p v, define p v t.span ∈ e.subterms ∧ t.name = p.wholeName := by
  rcases List.mem_append.mp ((trailingInBlock_perm stmts).mem_iff.mp h) with h | h
  · obtain ⟨p, v, hstmt, hname⟩ := mem_trailingOf h
    exact ⟨_, hstmt, p, v, mem_subterms_self _, hname⟩
  · obtain ⟨e, he, ht⟩ := List.mem_flatMap.mp h
    exact ⟨e, he, exists_of_trailingDefinitions ht⟩

end Expr

section
variable [ContentHash]

/-- a warning about the source: about one of its expressions, about all of them as one sequence of
statements, or about one of its compiled forms -/
inductive Warned (source : String) (w : Diagnostic) : Prop
  | expression {es : List (Expr String)} {e : Expr String} :
      parse source = .ok es → e ∈ es → w ∈ e.warnings →
      Warned source w
  | sequence {es : List (Expr String)} : parse source = .ok es → w ∈ Expr.warningsBlock es →
      Warned source w
  | compiled {o : Options} {fs : List (Form String Namespace)} {f : Form String Namespace} :
      compile o source = .ok fs → f ∈ fs → w ∈ f.warnings → Warned source w

theorem warnings_subset_of_ofExpr {o : Options} {e : Expr String} {f : Form String Namespace}
    (h : Form.ofExpr o e = .ok f) : f.warnings ⊆ e.warnings := by
  unfold Form.ofExpr at h
  split at h
  · cases h
    show (if o.keepWarnings then e.warnings else []) ⊆ e.warnings
    split
    · exact List.Subset.refl _
    · exact List.nil_subset _
  · cases h

/-- a warning about a compiled form is one about its expression -/
theorem exists_of_mem_compile {o : Options} {source : String} {fs : List (Form String Namespace)}
    (h : compile o source = .ok fs) {f : Form String Namespace} (hf : f ∈ fs) :
    ∃ es, parse source = .ok es ∧ ∃ e ∈ es, f.warnings ⊆ e.warnings := by
  obtain ⟨es, hparse, hforms⟩ := compile_eq_ok h
  have hwarned : List.Forall₂ (fun e f => f.warnings ⊆ e.warnings) es fs :=
    forall₂_of_ofExprs hforms fun _ _ _ => warnings_subset_of_ofExpr
  obtain ⟨hlength, hall⟩ := List.forall₂_iff_get.mp hwarned
  obtain ⟨i, hi, rfl⟩ := List.getElem_of_mem hf
  have hi' : i < es.length := hlength ▸ hi
  exact ⟨es, hparse, es[i], List.getElem_mem hi', hall i hi' hi⟩

/-- a warning is about a definition inside an expression of the source -/
theorem Warned.exists_definition {source : String} {w : Diagnostic} (h : Warned source w) :
    ∃ es, parse source = .ok es ∧ ∃ e ∈ es, ∃ p v s, .define p v s ∈ e.subterms ∧
      w = (TrailingDefinition.mk p.wholeName s).diagnostic := by
  have hexpression : ∀ {e : Expr String}, w ∈ e.warnings → ∃ p v s, .define p v s ∈ e.subterms ∧
      w = (TrailingDefinition.mk p.wholeName s).diagnostic := by
    intro e hw
    obtain ⟨t, ht, rfl⟩ := List.mem_map.mp hw
    obtain ⟨p, v, hdefine, hname⟩ := Expr.exists_of_trailingDefinitions ht
    exact ⟨p, v, t.span, hdefine, by rw [← hname]⟩
  cases h with
  | expression hparse he hw => exact ⟨_, hparse, _, he, hexpression hw⟩
  | sequence hparse hw =>
    obtain ⟨t, ht, rfl⟩ := List.mem_map.mp hw
    obtain ⟨e, he, p, v, hdefine, hname⟩ := Expr.exists_of_trailingInBlock ht
    exact ⟨_, hparse, e, he, p, v, t.span, hdefine, by rw [← hname]⟩
  | compiled hcompile hf hw =>
    obtain ⟨es, hparse, e, he, hsubset⟩ := exists_of_mem_compile hcompile hf
    exact ⟨es, hparse, e, he, hexpression (hsubset hw)⟩

/-! ## diagnostics -/

/-- **Diagnostics quote a term of the source.**  Whatever is found wrong behind the reader stands at
the place of a datum that covers some text of the source.  An error of recognition shows that datum,
or a name that stands at its place; a collision and a warning are at the list of a definition. -/
theorem diagnostics_quote_terms {source : String} (hsize : source.utf8ByteSize < 2 ^ 32)
    {ds : List (Datum String)} (hread : read source = .ok ds) :
    (∀ e, parse source = .error e → ∃ e', e = .form e' ∧
      ∃ d ∈ Datum.subtermsAll ds, d.span.start < d.span.stop ∧ e'.span = d.span ∧
        e'.Shows source d) ∧
    (∀ o n s, compile o source = .error (.tree (.fieldCollision n s)) →
      ∃ d ∈ Datum.subtermsAll ds, d.span.start < d.span.stop ∧ d.span = s ∧ d.Defines (.name n)) ∧
    ∀ w, Warned source w →
      ∃ d ∈ Datum.subtermsAll ds, d.span.start < d.span.stop ∧
        ∃ p, d.Defines p ∧ w = (TrailingDefinition.mk p.wholeName d.span).diagnostic := by
  refine ⟨fun e h => ?_, fun o n s h => ?_, fun w h => ?_⟩
  · obtain ⟨e', rfl, he⟩ := parse_eq_error hread h
    rw [Expr.ofDatums_eq_mapM] at he
    obtain ⟨d, hd, hde⟩ := exists_of_mapM_error he
    obtain ⟨c, hc, habout⟩ := Expr.exists_about hde
    obtain ⟨hspan, hshows⟩ := shows_of_about hsize hread hd hc habout
    exact ⟨e', rfl, c, Datum.mem_subtermsAll.mpr ⟨d, hd, hc.mem_subterms⟩,
      nonempty_of_term hsize hread hd hc, hspan, hshows⟩
  · obtain ⟨es, hparse, e, he, herror⟩ := compile_eq_tree_error h
    obtain ⟨ds', hread', hes⟩ := parse_eq_ok hparse
    cases hread.symm.trans hread'
    obtain ⟨v, hdefine⟩ := Expr.exists_of_fieldCollision herror
    exact exists_definition_datum hsize hread hes he hdefine
  · obtain ⟨es, hparse, e, he, p, v, s, hdefine, rfl⟩ := h.exists_definition
    obtain ⟨ds', hread', hes⟩ := parse_eq_ok hparse
    cases hread.symm.trans hread'
    obtain ⟨d, hd, hwidth, rfl, hdefines⟩ := exists_definition_datum hsize hread hes he hdefine
    exact ⟨d, hd, hwidth, p, hdefines, rfl⟩

end

/-- a word behind a sigil whose own word is the same, and a definition behind a sigil that collides
and ends its block -/
theorem diagnostics_quote_terms_behind_sigils :
    (let source := "~@splice"
    let ds : List (Datum String) := [.list [.symbol "splice" ⟨0, 0⟩, .symbol "splice" ⟨2, 8⟩] ⟨0, 8⟩]
    let e : FormError := .reservedWord "splice" ⟨2, 8⟩
    source.utf8ByteSize < 2 ^ 32 ∧ read source = .ok ds ∧ parse source = .error (.form e) ∧
      ∃ d ∈ Datum.subtermsAll ds, d.span.start < d.span.stop ∧ e.span = d.span ∧
        e.Shows source d) ∧
    let source := "~(block (define pattern 1))"
    let ds : List (Datum String) := [.list [.symbol "unquote" ⟨0, 0⟩, .list [.symbol "block" ⟨2, 7⟩,
      .list [.symbol "define" ⟨9, 15⟩, .symbol "pattern" ⟨16, 23⟩, .literal (.int 1) ⟨24, 25⟩]
        ⟨8, 26⟩] ⟨1, 27⟩] ⟨0, 27⟩]
    let w := (TrailingDefinition.mk "pattern" ⟨8, 26⟩).diagnostic
    source.utf8ByteSize < 2 ^ 32 ∧ read source = .ok ds ∧
      compile .default source = .error (.tree (.fieldCollision "pattern" ⟨8, 26⟩)) ∧
      Warned source w ∧
      (∃ d ∈ Datum.subtermsAll ds, d.span.start < d.span.stop ∧ d.span = ⟨8, 26⟩ ∧
        d.Defines (.name "pattern")) ∧
      ∃ d ∈ Datum.subtermsAll ds, d.span.start < d.span.stop ∧
        ∃ p, d.Defines p ∧ w = (TrailingDefinition.mk p.wholeName d.span).diagnostic := by
  refine ⟨?_, ?_⟩
  · intro source ds e
    have hsize : source.utf8ByteSize < 2 ^ 32 := by decide
    have hread : read source = .ok ds := by decide +kernel
    have hparse : parse source = .error (.form e) := by
      rw [parse, hread]
      rfl
    obtain ⟨hform, _, _⟩ := diagnostics_quote_terms hsize hread
    obtain ⟨e', he', hquoted⟩ := hform _ hparse
    cases he'
    exact ⟨hsize, hread, hparse, hquoted⟩
  · intro source ds w
    have hsize : source.utf8ByteSize < 2 ^ 32 := by decide
    have hread : read source = .ok ds := by decide +kernel
    have hparse : parse source = .ok [.unquote (.block [.define (.name "pattern")
        (.literal (.int 1) ⟨24, 25⟩) ⟨8, 26⟩] ⟨1, 27⟩) ⟨0, 27⟩] := parse_of_read hread rfl
    have hcompile : compile .default source =
        .error (.tree (.fieldCollision "pattern" ⟨8, 26⟩)) := by
      rw [compile, hparse]
      rfl
    have hwarned : Warned source w := .expression hparse List.mem_cons_self List.mem_cons_self
    obtain ⟨_, hcollision, hwarning⟩ := diagnostics_quote_terms hsize hread
    exact ⟨hsize, hread, hcompile, hwarned, hcollision _ _ _ hcompile, hwarning _ hwarned⟩

end TraceFront
