import TraceFront.Proofs.Named.OfDatum
import TraceFront.Proofs.Named.OfExpr
import TraceFront.Proofs.Named.Reader
import TraceFront.Proofs.Session.ScopeTable
import TraceFront.Proofs.Source.Identifiers
import TraceFront.Session

/-!
# A session compiles what the source says

The layers of a session work on handles, and each of them transcribes a layer that works on texts.
Together they give the forms that `compile` makes of the source, with handles for texts and
namespaces.

* `Session.Grows`            one session is an earlier state of the other;
* `Session.link`             a form with the handles of a session;
* `Session.Transcribes`      a step that asks for texts and for scopes, always for the same ones;
* `transcribes_read`, `transcribes_parse`, `transcribes_form`, `transcribes_forms`   the layers;
* `transcribes_compile`      all of them.
-/

namespace TraceFront

namespace Session

/-- the second session is a later state of the first -/
structure Grows (s s' : Session) : Prop where
  interner : s.interner.Extends s'.interner
  scopes : s.scopes.Extends s'.scopes

theorem Grows.refl (s : Session) : s.Grows s := ⟨.refl _, .refl _⟩

theorem Grows.trans {s s' s'' : Session} (h : s.Grows s') (h' : s'.Grows s'') : s.Grows s'' :=
  ⟨h.interner.trans h'.interner, h.scopes.trans h'.scopes⟩

/-- the session when it has been asked for handles of texts and for scopes of namespaces -/
def after (s : Session) (texts : List String) (nss : List Namespace) : Session :=
  ⟨s.interner.internAll texts, s.scopes.resolveAll nss⟩

theorem after_append (s : Session) (texts texts' : List String) (nss nss' : List Namespace) :
    s.after (texts ++ texts') (nss ++ nss') = (s.after texts nss).after texts' nss' := by
  rw [after, Interner.internAll_append, ScopeTable.resolveAll_append]
  rfl

theorem grows_after (s : Session) (texts : List String) (nss : List Namespace) :
    s.Grows (s.after texts nss) :=
  ⟨s.interner.extends_internAll texts, s.scopes.extends_resolveAll nss⟩

/-- what has been asked for changes nothing when it is asked for again -/
theorem after_again {s s' : Session} {texts : List String} {nss : List Namespace}
    (h : (s.after texts nss).Grows s') : s'.after texts nss = s' := by
  have htexts : ∀ n ∈ texts, s'.interner.Knows n := fun n hn =>
    (Interner.knows_internAll hn).mono h.interner
  rw [after, Interner.internAll_of_knows htexts, ScopeTable.resolveAll_again h.scopes]

/-! ## forms with handles -/

def linkProcedure (s : Session) (p : Procedure String Namespace) : Procedure Name ScopeId :=
  ⟨p.name.map s.interner.nameOf, p.body, p.identity, (s.scopes.resolve p.scope).1⟩

/-- the form with the handles that its texts and its namespace have in the session -/
def link (s : Session) (f : Form String Namespace) : Form Name ScopeId :=
  ⟨f.tree, f.core.map s.interner.nameOf, f.procedure.map s.linkProcedure, f.warnings⟩

/-! ## steps -/

section
variable {α β : Type} {known names names' : List String} {nss nss' : List Namespace}
  {f : Session → Session → α × Session} {a : Session → α}

/-- Given the handles of `known` texts, the step asks for the same texts and for the scopes of `nss`,
whatever else is there.  It gives `a` with the handles that any later session has for them, and the
texts `names` have one. -/
def Transcribes (known : List String) (f : Session → Session → α × Session) (a : Session → α)
    (names : List String) (nss : List Namespace) : Prop :=
  ∃ texts, names ⊆ known ++ texts ∧
    ∀ s later : Session, (∀ n ∈ known, s.interner.Knows n) → (s.after texts nss).Grows later →
      f later s = (a later, s.after texts nss)

theorem transcribes_pure (a : Session → α) :
    Transcribes known (fun later s => (a later, s)) a [] [] :=
  ⟨[], List.nil_subset _, fun _ _ _ _ => rfl⟩

theorem Transcribes.bind {g : Session → α → Session → β × Session} {b : Session → β}
    (hf : Transcribes known f a names nss)
    (hg : Transcribes (known ++ names) (fun later => g later (a later)) b names' nss') :
    Transcribes known (fun later s => g later (f later s).1 (f later s).2) b names' (nss ++ nss') := by
  obtain ⟨texts, hnames, hf⟩ := hf
  obtain ⟨texts', hnames', hg⟩ := hg
  refine ⟨texts ++ texts', subset_of_subsets hnames hnames', ?_⟩
  intro s later hs hlater
  rw [after_append] at hlater ⊢
  have hfirst := hf s later hs (.trans (grows_after _ _ _) hlater)
  show g later (f later s).1 (f later s).2 = _
  rw [hfirst]
  refine hg _ later ?_ hlater
  have hafter : known ++ names ⊆ known ++ texts := by grind
  exact Interner.knows_of_subset hafter hs

theorem Transcribes.map {g : Session → α → β} (hf : Transcribes known f a names nss) :
    Transcribes known (fun later s => (g later (f later s).1, (f later s).2))
      (fun later => g later (a later)) names nss := by
  obtain ⟨texts, hnames, hf⟩ := hf
  refine ⟨texts, hnames, ?_⟩
  intro s later hs hlater
  simp only [hf s later hs hlater]

theorem Transcribes.weaken {known' : List String} (h : Transcribes known f a names nss)
    (hknown : known ⊆ known') (hnames : names' ⊆ known' ++ names) :
    Transcribes known' f a names' nss := by
  obtain ⟨texts, hsubset, hf⟩ := h
  refine ⟨texts, by grind, ?_⟩
  intro s later hs
  exact hf s later fun n hn => hs n (hknown hn)

/-- a step that takes in texts is a step of the session -/
theorem transcribes_interning {ε : Type} {x : (String → Name) → Interning ε α}
    {r : (String → Name) → Except ε α} (hx : Interning.Transcribes known x r names) :
    Transcribes known
      (fun later s =>
        (((x later.interner.nameOf).run.run s.interner).1,
          ⟨((x later.interner.nameOf).run.run s.interner).2, s.scopes⟩))
      (fun later => r later.interner.nameOf) names [] := by
  obtain ⟨texts, hnames, hx⟩ := hx
  refine ⟨texts, hnames, ?_⟩
  intro s later hs hlater
  simp only [hx s.interner later.interner hs hlater.interner]
  rfl

section
variable {g : Session → α × Session}

/-- a step that is handed no handles, from any session -/
theorem Transcribes.run (h : Transcribes [] (fun _ => g) a names nss) : ∃ texts, names ⊆ texts ∧
    ∀ s : Session, g s = (a (s.after texts nss), s.after texts nss) := by
  obtain ⟨texts, hnames, hg⟩ := h
  exact ⟨texts, hnames, fun s => hg s _ (List.forall_mem_nil _) (.refl _)⟩

/-- it can be taken again, with the same outcome and no change -/
theorem Transcribes.again (h : Transcribes [] (fun _ => g) a names nss) (s : Session) :
    g (g s).2 = g s := by
  obtain ⟨texts, _, hg⟩ := h.run
  have hagain : (s.after texts nss).after texts nss = s.after texts nss := after_again (.refl _)
  rw [hg s, hg (s.after texts nss), hagain]

end

end

/-! ## reading and recognition -/

theorem read_of_lexed {source : String} {ts : List Token} (h : lex source = .ok ts) (s : Session) :
    s.read source = (((readNames ts).run.run s.interner).1.mapError .read,
      ⟨((readNames ts).run.run s.interner).2, s.scopes⟩) := by
  rw [read, h]
  rfl

theorem transcribes_read {source : String} {ts : List Token} {ds : List (Datum String)}
    (hlex : lex source = .ok ts) (h : readTokens ts = .ok ds) :
    Transcribes [] (fun _ s => s.read source)
      (fun later => .ok (ds.map (Datum.map later.interner.nameOf))) (ts.flatMap Token.names) [] := by
  simp only [read_of_lexed hlex]
  exact (transcribes_interning (transcribes_readNames h)).map

theorem transcribes_read_error {source : String} {e : SourceError}
    (h : TraceFront.read source = .error e) :
    Transcribes [] (fun _ s => s.read source) (fun _ => .error e) [] [] := by
  unfold TraceFront.read at h
  cases hlex : lex source with
  | error e' =>
    rw [hlex] at h
    cases h
    simp only [read, hlex]
    exact transcribes_pure _
  | ok ts =>
    rw [hlex] at h
    cases hread : readTokens ts with
    | ok ds =>
      simp only [hread] at h
      cases h
    | error e' =>
      simp only [hread] at h
      cases h
      simp only [read_of_lexed hlex]
      exact (transcribes_interning (transcribes_readNames_error hread)).map

/-- the expressions of what was read -/
def recognize (r : Except SourceError (List (Datum Name))) (s : Session) :
    Except SourceError (List (Expr Name)) × Session :=
  match r with
  | .error e => (.error e, s)
  | .ok ds =>
    let (r, interner) := (FormParser.new >>= fun v => ofExcept (v.parse ds)).run.run s.interner
    (r.mapError .form, { s with interner })

theorem parse_eq (s : Session) (source : String) :
    s.parse source = recognize (s.read source).1 (s.read source).2 := by
  unfold parse
  rcases s.read source with ⟨_ | ds, s'⟩
  · rfl
  · rfl

theorem transcribes_parse {source : String} {ds : List (Datum String)}
    (h : TraceFront.read source = .ok ds) :
    Transcribes [] (fun _ s => s.parse source)
      (fun later => (TraceFront.parse source).map (List.map (Expr.map later.interner.nameOf)))
      (FormParser.vocabulary ++ Datum.namesAll ds) [] := by
  obtain ⟨ts, hlex, hread⟩ := read_eq_ok h
  have hnames : FormParser.vocabulary ++ Datum.namesAll ds ⊆
      FormParser.vocabulary ++ ([] ++ ts.flatMap Token.names) := by
    have := names_of_readTokens hread
    unfold FormParser.vocabulary
    grind
  have hrecognized : TraceFront.parse source = (Expr.ofDatums ds).mapError .form := by
    unfold TraceFront.parse
    rw [h]
  simp only [parse_eq, hrecognized]
  refine (transcribes_read hlex hread).bind ?_
  have hparse := transcribes_interning (FormParser.transcribes_parse ds
    (List.Subset.trans (List.subset_append_right _ _) hnames) hnames)
  have hlifted := hparse.map (g := fun _ r => r.mapError SourceError.form)
  cases hrest : Expr.ofDatums ds with
  | ok es =>
    rw [hrest] at hlifted
    exact hlifted
  | error e =>
    rw [hrest] at hlifted
    exact hlifted

theorem transcribes_parse_unread {source : String} {e : SourceError}
    (h : TraceFront.read source = .error e) :
    Transcribes [] (fun _ s => s.parse source) (fun _ => .error e) [] [] := by
  simp only [parse_eq]
  exact (transcribes_read_error h).bind (g := fun _ => recognize) (transcribes_pure _)

theorem transcribes_parse_ok {source : String} {es : List (Expr String)}
    (h : TraceFront.parse source = .ok es) :
    Transcribes [] (fun _ s => s.parse source)
      (fun later => .ok (es.map (Expr.map later.interner.nameOf))) (Expr.namesAll es) [] := by
  obtain ⟨ds, hread, hrecognized⟩ := parse_eq_ok h
  have hparse := transcribes_parse hread
  simp only [h] at hparse
  have hnames := Expr.namesAll_ofDatums (fun d _ => Expr.names_ofDatum d) hrecognized
  exact hparse.weaken (List.nil_subset _)
    (List.Subset.trans hnames (List.subset_append_of_subset_right _
      (List.subset_append_right _ _)))

theorem transcribes_parse_error {source : String} {e : SourceError}
    (h : TraceFront.parse source = .error e) :
    Transcribes [] (fun _ s => s.parse source) (fun _ => .error e) [] [] := by
  cases hread : TraceFront.read source with
  | error e' =>
    have he : e' = e := by
      unfold TraceFront.parse at h
      rw [hread] at h
      exact Except.error.inj h
    exact he ▸ transcribes_parse_unread hread
  | ok ds =>
    have hparse := transcribes_parse hread
    simp only [h] at hparse
    exact hparse.weaken (List.nil_subset _) (List.nil_subset _)

/-! ## forms -/

/-- the function in a form with handles is the function in the form -/
theorem functionIn?_map {e : Expr String} {ρ : String → Name} {text : Name → String}
    (h : ∀ n ∈ e.names, text (ρ n) = n) (tree : Node) :
    (e.map ρ).functionIn? text tree =
      (e.functionIn? id tree).map fun f => (f.1.map ρ, f.2) := by
  cases e with
  | define p v s =>
    cases p with
    | name n =>
      have hn : text (ρ n) = n := h n List.mem_cons_self
      simp only [Expr.map, Pattern.map, Expr.functionIn?, Expr.isProgram_map, hn]
      split
      · rw [Option.map_map]
        rfl
      · rfl
    | _ => rfl
  | _ => rfl

/-- the namespace whose scope a form asks for, if it makes a procedure -/
def requests (f : Form String Namespace) : List Namespace := (f.procedure.map (·.scope)).toList

variable [ContentHash]

theorem procedure_eq {s later : Session} {e : Expr String} {ns : Namespace} {tree : Node}
    (htext : ∀ n ∈ e.names, s.interner.textOf (later.interner.nameOf n) = n)
    (hscopes : (s.scopes.resolveAll
      ((Procedure.ofExpr? ns e tree).map (·.scope)).toList).Extends later.scopes) :
    s.procedure ns (e.map later.interner.nameOf) tree =
      ((Procedure.ofExpr? ns e tree).map later.linkProcedure,
        ⟨s.interner, s.scopes.resolveAll ((Procedure.ofExpr? ns e tree).map (·.scope)).toList⟩) := by
  unfold procedure
  rw [functionIn?_map htext, Procedure.ofExpr?] at *
  cases hf : e.functionIn? id tree with
  | none => rfl
  | some f =>
    rw [hf] at hscopes
    have hrequest : (s.scopes.resolve ns).2.Extends later.scopes := hscopes
    simp only [Option.map_some, linkProcedure, ScopeTable.resolve_later hrequest]
    rfl

theorem transcribes_form {o : Options} {e : Expr String} {f : Form String Namespace}
    (h : Form.ofExpr o e = .ok f) :
    Transcribes e.names (fun later s => s.form o (e.map later.interner.nameOf))
      (fun later => .ok (later.link f)) f.core.names (requests f) := by
  unfold Form.ofExpr at h
  split at h
  · rename_i tree htree
    cases h
    obtain ⟨texts, hnames, hcore⟩ := Expr.transcribes_toCore e (List.Subset.refl e.names)
    refine ⟨texts, hnames, ?_⟩
    intro s later hs hlater
    have hgrows : (s.interner.internAll texts).Extends later.interner := hlater.interner
    have htext : ∀ n ∈ e.names, s.interner.textOf (later.interner.nameOf n) = n := fun n hn =>
      Interner.textOf_later (hs n hn) ((s.interner.extends_internAll texts).trans hgrows)
    have htext' : ∀ n ∈ e.names,
        (s.interner.internAll texts).textOf (later.interner.nameOf n) = n := fun n hn =>
      Interner.textOf_later ((hs n hn).mono (s.interner.extends_internAll texts)) hgrows
    have htree' : s.tree o (e.map later.interner.nameOf) = .ok tree := by
      rw [Session.tree, Expr.map_map_eq_self e htext, htree]
    have hdesugar : s.desugar (e.map later.interner.nameOf) =
        ((e.core.map later.interner.nameOf, e.warnings),
          ⟨s.interner.internAll texts, s.scopes⟩) := by
      rw [desugar, hcore s.interner later.interner [] hs hgrows]
      rfl
    have hprocedure := procedure_eq (s := ⟨s.interner.internAll texts, s.scopes⟩) htext'
      hlater.scopes
    simp only [form, htree', hdesugar, hprocedure]
    rfl
  · cases h

theorem transcribes_form_error {o : Options} {e : Expr String} {err : TreeError}
    (h : Form.ofExpr o e = .error err) :
    Transcribes e.names (fun later s => s.form o (e.map later.interner.nameOf))
      (fun _ => .error err) [] [] := by
  unfold Form.ofExpr at h
  split at h
  · cases h
  · rename_i htree
    cases h
    refine ⟨[], List.nil_subset _, ?_⟩
    intro s later hs hlater
    have htext : ∀ n ∈ e.names, s.interner.textOf (later.interner.nameOf n) = n := fun n hn =>
      Interner.textOf_later (hs n hn) hlater.interner
    have htree' : s.tree o (e.map later.interner.nameOf) = .error err := by
      rw [Session.tree, Expr.map_map_eq_self e htext, htree]
    simp only [form, htree']
    rfl

/-- the other forms behind one that compiles -/
def formsBehind (o : Options) (es : List (Expr Name)) (r : Except TreeError (Form Name ScopeId))
    (s : Session) : Except TreeError (List (Form Name ScopeId)) × Session :=
  match r with
  | .error err => (.error err, s)
  | .ok f => ((s.forms o es).1.map (f :: ·), (s.forms o es).2)

theorem forms_cons (s : Session) (o : Options) (e : Expr Name) (es : List (Expr Name)) :
    s.forms o (e :: es) = formsBehind o es (s.form o e).1 (s.form o e).2 := by
  rw [forms]
  rcases s.form o e with ⟨_ | f, s'⟩
  · rfl
  · rfl

theorem transcribes_forms {o : Options} {es : List (Expr String)} :
    ∀ {fs : List (Form String Namespace)}, Form.ofExprs o es = (fs, none) →
      Transcribes (Expr.namesAll es)
        (fun later s => s.forms o (es.map (Expr.map later.interner.nameOf)))
        (fun later => .ok (fs.map later.link)) (fs.flatMap (·.core.names))
        (fs.flatMap requests) := by
  induction es with
  | nil =>
    intro fs h
    cases h
    exact transcribes_pure _
  | cons e es ih =>
    intro fs h
    rw [Form.ofExprs] at h
    cases he : Form.ofExpr o e with
    | error err =>
      rw [he] at h
      cases h
    | ok f =>
      rw [he] at h
      obtain ⟨rfl, hnone⟩ := Prod.mk.inj h
      have hrest := ih (Prod.ext rfl hnone : Form.ofExprs o es = ((Form.ofExprs o es).1, none))
      simp only [List.map_cons, forms_cons]
      have hfirst := (transcribes_form he).weaken (List.subset_append_left e.names (Expr.namesAll es))
        (List.subset_append_right _ f.core.names)
      refine hfirst.bind
        (g := fun later => formsBehind o (es.map (Expr.map later.interner.nameOf))) ?_
      have hbehind := hrest.map (g := fun later r => r.map (later.link f :: ·))
      exact hbehind.weaken (by simp) (by simp)

theorem transcribes_forms_error {o : Options} {es : List (Expr String)} {err : TreeError} :
    ∀ {fs : List (Form String Namespace)}, Form.ofExprs o es = (fs, some err) →
      Transcribes (Expr.namesAll es)
        (fun later s => s.forms o (es.map (Expr.map later.interner.nameOf)))
        (fun _ => .error err) [] (fs.flatMap requests) := by
  induction es with
  | nil =>
    intro fs h
    cases h
  | cons e es ih =>
    intro fs h
    rw [Form.ofExprs] at h
    simp only [List.map_cons, forms_cons]
    cases he : Form.ofExpr o e with
    | error err' =>
      rw [he] at h
      cases h
      have hfirst := (transcribes_form_error he).weaken
        (List.subset_append_left e.names (Expr.namesAll es)) (List.nil_subset _)
      exact hfirst.bind
        (g := fun later => formsBehind o (es.map (Expr.map later.interner.nameOf)))
        (transcribes_pure _)
    | ok f =>
      rw [he] at h
      obtain ⟨rfl, hsome⟩ := Prod.mk.inj h
      have hrest := ih (Prod.ext rfl hsome : Form.ofExprs o es = ((Form.ofExprs o es).1, some err))
      have hfirst := (transcribes_form he).weaken (List.subset_append_left e.names (Expr.namesAll es))
        (List.nil_subset _)
      refine hfirst.bind
        (g := fun later => formsBehind o (es.map (Expr.map later.interner.nameOf))) ?_
      have hbehind := hrest.map (g := fun later r => r.map (later.link f :: ·))
      exact hbehind.weaken (by simp) (List.nil_subset _)

/-! ## sources -/

/-- the forms of what was recognized -/
def compileAll (o : Options) (r : Except SourceError (List (Expr Name))) (s : Session) :
    Except CompileError (List (Form Name ScopeId)) × Session :=
  match r with
  | .error e => (.error (.source e), s)
  | .ok es => ((s.forms o es).1.mapError .tree, (s.forms o es).2)

theorem compile_eq (s : Session) (o : Options) (source : String) :
    s.compile o source = compileAll o (s.parse source).1 (s.parse source).2 := by
  unfold compile
  rcases s.parse source with ⟨_ | es, s'⟩
  · rfl
  · rfl

/-- the forms of a source before the first that fails, if it can be read and recognized -/
def formsBefore (o : Options) (source : String) : List (Form String Namespace) :=
  match TraceFront.parse source with
  | .error _ => []
  | .ok es => (Form.ofExprs o es).1

theorem formsBefore_of_parse {source : String} {es : List (Expr String)}
    (h : TraceFront.parse source = .ok es) (o : Options) :
    formsBefore o source = (Form.ofExprs o es).1 := by
  rw [formsBefore, h]

theorem forms_of_compile {o : Options} {source : String} {fs : List (Form String Namespace)}
    (h : TraceFront.compile o source = .ok fs) : ∃ es, TraceFront.parse source = .ok es ∧
      Form.ofExprs o es = (fs, none) := by
  unfold TraceFront.compile at h
  split at h
  · cases h
  · rename_i es hparse
    split at h
    · rename_i hforms
      cases h
      exact ⟨es, hparse, hforms⟩
    · cases h

theorem transcribes_compile {o : Options} {source : String} {fs : List (Form String Namespace)}
    (h : TraceFront.compile o source = .ok fs) :
    Transcribes [] (fun _ s => s.compile o source) (fun later => .ok (fs.map later.link))
      (fs.flatMap (·.core.names)) (fs.flatMap requests) := by
  obtain ⟨es, hparse, hforms⟩ := forms_of_compile h
  simp only [compile_eq]
  refine (transcribes_parse_ok hparse).bind (g := fun _ => compileAll o) ?_
  exact (transcribes_forms hforms).map (g := fun _ r => r.mapError CompileError.tree)

theorem transcribes_compile_error {o : Options} {source : String} {e : CompileError}
    (h : TraceFront.compile o source = .error e) :
    Transcribes [] (fun _ s => s.compile o source) (fun _ => .error e) []
      ((formsBefore o source).flatMap requests) := by
  unfold TraceFront.compile at h
  simp only [compile_eq]
  split at h
  · rename_i e' hparse
    cases h
    rw [formsBefore, hparse]
    exact (transcribes_parse_error hparse).bind (g := fun _ => compileAll o) (transcribes_pure _)
  · rename_i es hparse
    split at h
    · cases h
    · rename_i fs err hforms
      cases h
      rw [formsBefore_of_parse hparse, hforms]
      refine (transcribes_parse_ok hparse).bind (g := fun _ => compileAll o) ?_
      exact (transcribes_forms_error hforms).map (g := fun _ r => r.mapError CompileError.tree)

end Session

end TraceFront
