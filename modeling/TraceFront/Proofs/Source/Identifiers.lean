import TraceFront.Proofs.Datum.Reading
import TraceFront.Proofs.Expr.Recognition
import TraceFront.Proofs.Expr.Subterms
import TraceFront.Proofs.Token.Symbols
import TraceFront.Source

/-!
# The identifiers of a source

A name in an expression goes through three hands.  The lexer cuts it out as a symbol, which is a
nonempty run of characters that are not delimiters.  The reader turns three spellings into literals
and adds the words of forms for sigils.  Recognition refuses the words of forms, the wildcard and
the separator.

* `Identifier`          how a name looks after all three;
* `read_symbols`        the symbols that the reader lets through;
* `parse_identifiers`   every variable and every bound name of a source is an identifier.
-/

namespace TraceFront

/-- a symbol as the reader takes it from a source -/
structure PlainSymbol (n : String) : Prop where
  text : SymbolText n.toList
  not_nil : n ≠ "nil"
  not_true : n ≠ "true"
  not_false : n ≠ "false"

/-- a name that can stand in an expression -/
structure Identifier (n : String) : Prop extends PlainSymbol n, Allowed n

theorem Identifier.ne_empty {n : String} (h : Identifier n) : n ≠ "" := by
  rintro rfl
  exact h.text.ne_nil rfl

/-! ## reading -/

theorem isReserved_word (f : SpecialForm) : Vocabulary.isReserved f.word = true := by
  rw [Vocabulary.isReserved, SpecialForm.ofWord?_word]
  rfl

/-- a symbol that is read was in the source, or is the word of a sigil -/
def ReadSymbol (n : String) : Prop := Vocabulary.isReserved n = true ∨ PlainSymbol n

theorem read_eq_ok {source : String} {ds : List (Datum String)} (h : read source = .ok ds) :
    ∃ ts, lex source = .ok ts ∧ readTokens ts = .ok ds := by
  unfold read at h
  split at h
  · cases h
  · rename_i ts hlex
    cases hr : readTokens ts with
    | error e =>
      rw [hr] at h
      cases h
    | ok ds' =>
      rw [hr] at h
      cases h
      exact ⟨ts, hlex, hr⟩

theorem read_symbols {source : String} {ds : List (Datum String)} (h : read source = .ok ds) :
    ∀ d ∈ ds, ∀ n ∈ d.symbols, ReadSymbol n := by
  obtain ⟨ts, hlex, hread⟩ := read_eq_ok h
  refine forall_symbols_readTokens (fun f => .inl (isReserved_word f)) ?_ hread
  intro t ht d hd n hn
  obtain ⟨hk, h₁, h₂, h₃⟩ := kind_of_atom? hd hn
  exact .inr ⟨lex_symbols hlex t ht n hk, h₁, h₂, h₃⟩

/-! ## recognition -/

/-- a name that recognition finds in a datum and lets through -/
def Found (d : Datum String) (n : String) : Prop := n ∈ d.symbols ∧ Allowed n

theorem Found.of_item {c d : Datum String} (hc : c ∈ d.items) {n : String} (h : Found c n) :
    Found d n :=
  ⟨Datum.symbols_of_mem_items hc h.1, h.2⟩

theorem Pattern.binders_found {d : Datum String} :
    ∀ {p : Pattern String}, Pattern.ofDatum d = .ok p → ∀ n ∈ p.binders, Found d n := by
  induction d using Datum.childInduction with
  | step d ih =>
    have parts : ∀ {ds : List (Datum String)} {ps : List (Pattern String)},
        Pattern.ofDatums ds = .ok ps → (∀ c ∈ ds, c ∈ d.items) →
        ∀ n ∈ Pattern.bindersAll ps, Found d n := by
      intro ds ps hps hds n hn
      rw [Pattern.bindersAll_eq_flatMap] at hn
      obtain ⟨p, hp, hn⟩ := List.mem_flatMap.mp hn
      obtain ⟨c, hc, hcp⟩ := Pattern.exists_of_mem_ofDatums hps hp
      exact Found.of_item (hds c hc) (ih c (hds c hc) hcp n hn)
    intro p hp
    cases Pattern.spelled_of_ofDatum hp with
    | wildcard s => exact List.forall_mem_nil _
    | name s ha =>
      intro n hn
      rw [List.mem_singleton.mp hn]
      exact ⟨List.mem_singleton.mpr rfl, ha⟩
    | vector s hps => exact parts hps fun c hc => hc
    | tuple s _ hps => exact parts hps fun c hc => List.mem_cons_of_mem _ hc

theorem Expr.identifiers_found {d : Datum String} :
    ∀ {e : Expr String}, Expr.ofDatum d = .ok e → ∀ n ∈ e.identifiers, Found d n := by
  induction d using Datum.childInduction with
  | step d ih =>
    have part : ∀ {c : Datum String} {f : Expr String}, Expr.ofDatum c = .ok f → c ∈ d.items →
        ∀ n ∈ f.identifiers, Found d n :=
      fun hf hc n hn => Found.of_item hc (ih _ hc hf n hn)
    have parts : ∀ {ds : List (Datum String)} {es : List (Expr String)}, Expr.ofDatums ds = .ok es →
        (∀ c ∈ ds, c ∈ d.items) → ∀ n ∈ Expr.identifiersAll es, Found d n := by
      intro ds es hes hds n hn
      obtain ⟨f, hf, hn⟩ := Expr.mem_identifiersAll.mp hn
      obtain ⟨c, hc, hcf⟩ := Expr.exists_of_mem_ofDatums hes hf
      exact part hcf (hds c hc) n hn
    have binders : ∀ {c : Datum String} {p : Pattern String}, Pattern.ofDatum c = .ok p → c ∈ d.items →
        ∀ n ∈ p.binders, Found d n :=
      fun hp hc n hn => Found.of_item hc (Pattern.binders_found hp n hn)
    intro e hde
    cases Expr.spelled_of_ofDatum hde with
    | literal l s => exact List.forall_mem_nil _
    | self s => exact List.forall_mem_nil _
    | var s ha =>
      intro n hn
      rw [List.mem_singleton.mp hn]
      exact ⟨List.mem_singleton.mpr rfl, ha⟩
    | apply s _ hf hargs =>
      exact List.forall_mem_append.mpr ⟨part hf (by simp [Datum.items]),
        parts hargs (by simp +contextual [Datum.items])⟩
    | program s _ hp hbody =>
      exact List.forall_mem_append.mpr ⟨binders hp (by simp [Datum.items]),
        parts hbody (by simp +contextual [Datum.items])⟩
    | ifThen s _ hp ht =>
      exact List.forall_mem_append.mpr ⟨part hp (by simp [Datum.items]),
        part ht (by simp [Datum.items])⟩
    | ifThenElse s _ hp ht he =>
      exact List.forall_mem_append.mpr ⟨List.forall_mem_append.mpr
        ⟨part hp (by simp [Datum.items]), part ht (by simp [Datum.items])⟩,
          part he (by simp [Datum.items])⟩
    | block s _ hstmts => exact parts hstmts (by simp +contextual [Datum.items])
    | define s _ hp hv =>
      exact List.forall_mem_append.mpr ⟨binders hp (by simp [Datum.items]),
        part hv (by simp [Datum.items])⟩
    | withAddress s _ ht he =>
      exact List.forall_mem_append.mpr ⟨part ht (by simp [Datum.items]),
        part he (by simp [Datum.items])⟩
    | tuple s _ hes => exact parts hes (by simp +contextual [Datum.items])
    | this s _ => exact List.forall_mem_nil _
    | splice s _ he => exact fun n hn => part he (by simp [Datum.items]) n hn
    | unquote s _ he => exact fun n hn => part he (by simp [Datum.items]) n hn

/-! ## the identifiers of a source -/

theorem parse_eq_ok {source : String} {es : List (Expr String)} (h : parse source = .ok es) :
    ∃ ds, read source = .ok ds ∧ Expr.ofDatums ds = .ok es := by
  unfold parse at h
  split at h
  · cases h
  · rename_i ds hread
    cases hf : Expr.ofDatums ds with
    | error e =>
      rw [hf] at h
      cases h
    | ok es' =>
      rw [hf] at h
      cases h
      exact ⟨ds, hread, hf⟩

/-- every variable and every bound name of a source is an identifier -/
theorem parse_identifiers {source : String} {es : List (Expr String)} (h : parse source = .ok es) :
    ∀ n ∈ Expr.identifiersAll es, Identifier n := by
  obtain ⟨ds, hread, hf⟩ := parse_eq_ok h
  intro n hn
  obtain ⟨e, he, hn⟩ := Expr.mem_identifiersAll.mp hn
  obtain ⟨d, hd, hde⟩ := Expr.exists_of_mem_ofDatums hf he
  obtain ⟨hsym, hallowed⟩ := Expr.identifiers_found hde n hn
  rcases read_symbols hread d hd n hsym with hres | hplain
  · rw [hallowed.not_reserved] at hres
    cases hres
  · exact { hplain, hallowed with }

/-- so are those of every expression inside the source -/
theorem identifiers_of_mem_parse {source : String} {es : List (Expr String)}
    (h : parse source = .ok es)
    {e : Expr String} (he : e ∈ Expr.subtermsAll es) : ∀ n ∈ e.identifiers, Identifier n := by
  intro n hn
  obtain ⟨f, hf, hef⟩ := Expr.mem_subtermsAll.mp he
  exact parse_identifiers h n
    (Expr.mem_identifiersAll.mpr ⟨f, hf, Expr.identifiers_of_mem_subterms hef hn⟩)

end TraceFront
