import TraceFront.Proofs.Session.Transcription

/-!
# A session forgets nothing and invents nothing

What a session compiles depends on the source alone.  The handles that it gives out depend on what
it has met before, but they stand for texts and namespaces, and those do not.

* `Session.Reachable`   the sessions that requests and compilations lead to;
* `spell_link`          the handles of a form lead back to it;
* `compile_cases`       what a session compiles, spelled, is what `compile` makes of the source;
* `parse_eq_map`        the expressions that it recognizes on the way are those of the source;
* `known_of_parse`      it knows every text that recognition compares.
-/

namespace TraceFront

/-! ## forms -/

/-- the procedure with its namespace as one that is known -/
def Procedure.resolved (p : Procedure String Namespace) : Procedure String (Option Namespace) :=
  ⟨p.name, p.body, p.identity, some p.scope⟩

namespace Form

/-- the form with the namespace of its procedure as one that is known -/
def resolved (f : Form String Namespace) : Form String (Option Namespace) :=
  ⟨f.tree, f.core, f.procedure.map Procedure.resolved, f.warnings⟩

/-- the name of the procedure is one of the core term -/
def Named (f : Form String Namespace) : Prop :=
  ∀ p ∈ f.procedure, ∀ n ∈ p.name, n ∈ f.core.names

section
variable [ContentHash]

theorem named_ofExpr {o : Options} {e : Expr String} {f : Form String Namespace}
    (h : ofExpr o e = .ok f) : f.Named := by
  unfold ofExpr at h
  split at h
  · cases h
    intro p hp n hn
    rcases Procedure.ofExpr?_cases hp with ⟨q, body, s, _, rfl⟩ | ⟨m, v, s, body, rfl, hv, _, rfl⟩
    · cases hn
    · cases hn
      show n ∈ (definePattern (.name n) v.isProgram v.core (.var n) false).names
      rw [hv]
      exact List.mem_cons_self
  · cases h

theorem named_ofExprs (o : Options) (es : List (Expr String)) :
    ∀ f ∈ (ofExprs o es).1, f.Named := by
  induction es with
  | nil => exact List.forall_mem_nil _
  | cons e es ih =>
    rw [ofExprs]
    split
    · rename_i f hf
      exact List.forall_mem_cons.mpr ⟨named_ofExpr hf, ih⟩
    · exact List.forall_mem_nil _

end

end Form

namespace Session

/-! ## handles lead back -/

theorem spell_link {s : Session} (hs : s.scopes.Valid) {f : Form String Namespace} (hf : f.Named)
    (hnames : ∀ n ∈ f.core.names, s.interner.Knows n)
    (hscopes : ∀ ns ∈ requests f, ns ∈ s.scopes.namespaces) : s.spell (s.link f) = f.resolved := by
  have hback : ∀ n ∈ f.core.names, s.interner.textOf (s.interner.nameOf n) = n := fun n hn =>
    Interner.textOf_nameOf (hnames n hn) (.refl _)
  have hprocedure : (f.procedure.map s.linkProcedure).map s.spellProcedure =
      f.procedure.map Procedure.resolved := by
    cases hp : f.procedure with
    | none => rfl
    | some p =>
      have hname : (p.name.map s.interner.nameOf).map s.interner.textOf = p.name := by
        cases hn : p.name with
        | none => rfl
        | some n => exact congrArg some (hback n (hf p hp n hn))
      have hasked : p.scope ∈ requests f := by simp [requests, hp]
      have hscope : s.scopes.namespaceOf? (s.scopes.resolve p.scope).1 = some p.scope := by
        rw [ScopeTable.namespaceOf?, hs.scope?_of_mem (hscopes _ hasked)]
        rfl
      simp only [Option.map_some, linkProcedure, spellProcedure, hname, hscope]
      rfl
  simp only [link, spell, hprocedure, Core.map_map_eq_self f.core hback]
  rfl

/-! ## recognition -/

/-- the expressions that a session recognizes by handles are those of the source -/
theorem parse_eq_map (s : Session) (source : String) : (s.parse source).1 =
    (TraceFront.parse source).map (List.map (Expr.map (s.parse source).2.interner.nameOf)) := by
  cases h : TraceFront.parse source with
  | error e =>
    obtain ⟨texts, _, hparse⟩ := (transcribes_parse_error h).run
    rw [hparse]
    rfl
  | ok es =>
    obtain ⟨texts, _, hparse⟩ := (transcribes_parse_ok h).run
    rw [hparse]
    rfl

theorem known_of_parse (s : Session) {source : String} {ds : List (Datum String)}
    (h : TraceFront.read source = .ok ds) : ∀ n ∈ FormParser.vocabulary ++ Datum.namesAll ds,
      (s.parse source).2.interner.Knows n := by
  obtain ⟨texts, hnames, hparse⟩ := (transcribes_parse h).run
  rw [hparse]
  exact fun n hn => Interner.knows_internAll (hnames hn)

/-! ## reachable sessions -/

section
variable [ContentHash]

/-- the sessions that requests for handles and compilations lead to.  The interner may also be used
with another table of scopes. -/
inductive Reachable : Session → Prop
  | start : Reachable .empty
  | intern {s : Session} (texts : List String) : Reachable s → Reachable (s.internAll texts)
  | resolve {s : Session} (ns : Namespace) : Reachable s → Reachable (s.resolve ns)
  | compile {s : Session} (o : Options) (source : String) :
      Reachable s → Reachable (s.compile o source).2
  | scopes {s : Session} {t : ScopeTable} : t.Valid → Reachable s → Reachable ⟨s.interner, t⟩

/-- a compilation asks for texts and for the scopes of procedures, and changes nothing else -/
theorem exists_after_compile (o : Options) (source : String) : ∃ texts, ∀ s : Session,
    (s.compile o source).2 = s.after texts ((formsBefore o source).flatMap requests) := by
  cases h : TraceFront.compile o source with
  | ok fs =>
    obtain ⟨texts, _, hcompile⟩ := (transcribes_compile h).run
    obtain ⟨es, hparse, hforms⟩ := forms_of_compile h
    rw [formsBefore_of_parse hparse, hforms]
    exact ⟨texts, fun s => congrArg Prod.snd (hcompile s)⟩
  | error e =>
    obtain ⟨texts, _, hcompile⟩ := (transcribes_compile_error h).run
    exact ⟨texts, fun s => congrArg Prod.snd (hcompile s)⟩

theorem scopes_compile (s : Session) (o : Options) (source : String) :
    (s.compile o source).2.scopes =
      s.scopes.resolveAll ((formsBefore o source).flatMap requests) := by
  obtain ⟨texts, hcompile⟩ := exists_after_compile o source
  rw [hcompile]
  rfl

theorem Reachable.valid {s : Session} (h : s.Reachable) : s.scopes.Valid := by
  induction h with
  | start => exact ScopeTable.valid_empty
  | intern texts _ ih => exact ih
  | resolve ns _ ih => exact ih.resolve ns
  | compile o source _ ih =>
    rw [scopes_compile]
    exact ih.resolveAll _
  | scopes ht _ _ => exact ht

theorem compile_cases {s : Session} (hs : s.scopes.Valid) (o : Options) (source : String) :
    (∃ e, TraceFront.compile o source = .error e ∧ (s.compile o source).1 = .error e) ∨
    ∃ fs gs, TraceFront.compile o source = .ok fs ∧ (s.compile o source).1 = .ok gs ∧
      gs.map (s.compile o source).2.spell = fs.map Form.resolved := by
  cases h : TraceFront.compile o source with
  | error e =>
    obtain ⟨texts, _, hcompile⟩ := (transcribes_compile_error h).run
    rw [hcompile]
    exact .inl ⟨e, rfl, rfl⟩
  | ok fs =>
    obtain ⟨texts, hnames, hcompile⟩ := (transcribes_compile h).run
    rw [hcompile]
    refine .inr ⟨fs, _, rfl, rfl, ?_⟩
    obtain ⟨es, _, hforms⟩ := forms_of_compile h
    have hnamed : ∀ f ∈ (Form.ofExprs o es).1, f.Named := Form.named_ofExprs o es
    rw [hforms] at hnamed
    rw [List.map_map]
    refine List.map_congr_left fun f hf => ?_
    refine spell_link (hs.resolveAll _) (hnamed f hf) ?_ ?_
    · intro n hn
      exact Interner.knows_internAll (hnames (List.mem_flatMap.mpr ⟨f, hf, hn⟩))
    · intro ns hns
      exact ScopeTable.mem_namespaces_resolveAll.mpr (.inr (List.mem_flatMap.mpr ⟨f, hf, hns⟩))

/-! ## histories -/

/-- **Compilation does not depend on what was compiled before.**  Whatever texts two sessions have
taken in, they refuse a source with the same error, or compile it to forms that are equal up to the
handles, which stand for the same texts and namespaces.  What they recognize by comparing handles
are the same expressions, too: on all names of the source and the words of the forms, equality of
handles is equality of texts. -/
theorem compile_of_any_history {s₁ s₂ : Session} (h₁ : s₁.Reachable) (h₂ : s₂.Reachable)
    (o : Options) (source : String) :
    ((∃ e, TraceFront.compile o source = .error e ∧
        (s₁.compile o source).1 = .error e ∧ (s₂.compile o source).1 = .error e) ∨
      ∃ fs₁ fs₂, (s₁.compile o source).1 = .ok fs₁ ∧ (s₂.compile o source).1 = .ok fs₂ ∧
        fs₁.map (s₁.compile o source).2.spell = fs₂.map (s₂.compile o source).2.spell) ∧
    (∀ s ∈ [s₁, s₂], (s.parse source).1 = (TraceFront.parse source).map
      (List.map (Expr.map (s.parse source).2.interner.nameOf))) ∧
    ∀ s ∈ [s₁, s₂], ∀ ds, TraceFront.read source = .ok ds →
      ∀ a ∈ FormParser.vocabulary ++ Datum.namesAll ds,
        ∀ b ∈ FormParser.vocabulary ++ Datum.namesAll ds,
          ((s.parse source).2.interner.nameOf a = (s.parse source).2.interner.nameOf b ↔ a = b) := by
  refine ⟨?_, fun s _ => s.parse_eq_map source, ?_⟩
  · rcases compile_cases h₁.valid o source with ⟨e, he, hr₁⟩ | ⟨fs, fs₁, hfs, hr₁, hspell₁⟩
    · rcases compile_cases h₂.valid o source with ⟨e', he', hr₂⟩ | ⟨fs', _, hfs', _, _⟩
      · rw [he] at he'
        cases he'
        exact .inl ⟨e, he, hr₁, hr₂⟩
      · rw [he] at hfs'
        cases hfs'
    · rcases compile_cases h₂.valid o source with ⟨e', he', _⟩ | ⟨fs', fs₂, hfs', hr₂, hspell₂⟩
      · rw [hfs] at he'
        cases he'
      · rw [hfs] at hfs'
        cases hfs'
        exact .inr ⟨fs₁, fs₂, hr₁, hr₂, hspell₁.trans hspell₂.symm⟩
  · intro s _ ds hds a ha b hb
    have hknown := s.known_of_parse hds
    exact Interner.nameOf_eq_iff (hknown a ha) (hknown b hb)

end

/-- a session that has met other texts compiles a function under the same name -/
theorem compile_of_any_history_function :
    let s := ((empty.internAll ["x", "f"]).compile .default "(define g (program [f x] f))").2
    ∃ fs₁ fs₂, (empty.compile .default "(define f (program x (x ~f)))").1 = .ok fs₁ ∧
      (s.compile .default "(define f (program x (x ~f)))").1 = .ok fs₂ ∧
      fs₁.map (empty.compile .default "(define f (program x (x ~f)))").2.spell =
        fs₂.map (s.compile .default "(define f (program x (x ~f)))").2.spell := by
  intro s
  let e : Expr String := .define (.name "f") (.program (.name "x")
    [.apply (.var "x" ⟨22, 23⟩) [.unquote (.var "f" ⟨25, 26⟩) ⟨24, 26⟩] ⟨21, 27⟩] ⟨10, 28⟩) ⟨0, 29⟩
  let d : Datum String := .list [.symbol "define" ⟨1, 7⟩, .symbol "f" ⟨8, 9⟩,
    .list [.symbol "program" ⟨11, 18⟩, .symbol "x" ⟨19, 20⟩,
      .list [.symbol "x" ⟨22, 23⟩, .list [.symbol "unquote" ⟨24, 24⟩, .symbol "f" ⟨25, 26⟩] ⟨24, 26⟩]
        ⟨21, 27⟩] ⟨10, 28⟩] ⟨0, 29⟩
  have hread : TraceFront.read "(define f (program x (x ~f)))" = .ok [d] := by decide +kernel
  have hparse : TraceFront.parse "(define f (program x (x ~f)))" = .ok [e] :=
    parse_of_read hread rfl
  have hcompile : ∀ err, TraceFront.compile .default "(define f (program x (x ~f)))" ≠ .error err := by
    intro err h
    rw [TraceFront.compile, hparse] at h
    cases h
  have hs : s.Reachable := .compile _ _ (.intern _ .start)
  rcases (compile_of_any_history .start hs .default "(define f (program x (x ~f)))").1 with
    ⟨err, h, _⟩ | h
  · exact absurd h (hcompile err)
  · exact h

/-! ## again -/

/-- **Compiling a source again changes nothing.**  Whatever came of the first run, the second one
gives the same outcome, with the same handles, and leaves the interner and the scopes as they
were. -/
theorem compile_again [ContentHash] (s : Session) (o : Options) (source : String) :
    (s.compile o source).2.compile o source = s.compile o source := by
  cases h : TraceFront.compile o source with
  | ok fs => exact (transcribes_compile h).again s
  | error e => exact (transcribes_compile_error h).again s

/-- the first run makes a procedure and stops at the second form -/
theorem compile_again_after_collision :
    let source := "(program [x] x) (define pattern x)"
    (empty.compile .default source).1 = .error (.tree (.fieldCollision "pattern" ⟨16, 34⟩)) ∧
      (empty.compile .default source).2.compile .default source = empty.compile .default source := by
  intro source
  let f : Expr String := .program (.tuple [.name "x"]) [.var "x" ⟨13, 14⟩] ⟨0, 15⟩
  let g : Expr String := .define (.name "pattern") (.var "x" ⟨32, 33⟩) ⟨16, 34⟩
  have hread : TraceFront.read source = .ok
      [.list [.symbol "program" ⟨1, 8⟩, .vector [.symbol "x" ⟨10, 11⟩] ⟨9, 12⟩, .symbol "x" ⟨13, 14⟩]
          ⟨0, 15⟩,
        .list [.symbol "define" ⟨17, 23⟩, .symbol "pattern" ⟨24, 31⟩, .symbol "x" ⟨32, 33⟩]
          ⟨16, 34⟩] := by decide +kernel
  have hparse : TraceFront.parse source = .ok [f, g] := parse_of_read hread rfl
  have hcompile : TraceFront.compile .default source =
      .error (.tree (.fieldCollision "pattern" ⟨16, 34⟩)) := by
    rw [TraceFront.compile, hparse]
    rfl
  refine ⟨?_, compile_again empty .default source⟩
  rcases compile_cases Reachable.start.valid .default source with ⟨e, he, hr⟩ | ⟨fs, gs, hfs, _⟩
  · rw [hcompile] at he
    cases he
    exact hr
  · rw [hcompile] at hfs
    cases hfs

end Session

end TraceFront
