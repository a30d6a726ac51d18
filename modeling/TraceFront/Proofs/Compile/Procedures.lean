import TraceFront.Proofs.Compile.Places
import TraceFront.Proofs.Core.Agreement
import TraceFront.Proofs.Session.Concatenation
import TraceFront.Proofs.Source.Addresses

/-!
# A procedure is its function literal

The body of a bound function is looked up in the node of the definition, by the name that it is bound
to, beside the field of the pattern.  No name that is accepted leads to that other field.

* `Expr.Makes`                   the forms that make a procedure, with the name and the literal;
* `ofExpr?_of_makes`             the body is the tree of the literal alone,
* `makes_of_ofExpr?`             and there are no other procedures;
* `treeWith_eq_of_unplaced_eq`   the tree of a literal is the same at all places and under all tests;
* `content_form`                 handles do not change a body or an identity;
* `exists_of_makes`              a function literal in a source that compiles has its procedure.
-/

namespace TraceFront

/-! ## one form -/

namespace Expr

/-- the form is a function literal, with no name, or the definition of a single name as one -/
inductive Makes : Expr String → Option String → Expr String → Prop
  | alone (p : Pattern String) (body : List (Expr String)) (s : Span) :
      Makes (program p body s) none (program p body s)
  | bound (n : String) (p : Pattern String) (body : List (Expr String)) (s s' : Span) :
      Makes (define (.name n) (program p body s) s') (some n) (program p body s)

theorem treeWith_value {accepts : Node → Bool} {p : Pattern String} {v : Expr String} {s : Span}
    {t : Node} (h : (define p v s).treeWith accepts = .ok t) : v.treeWith accepts = .ok v.node := by
  rw [treeWith] at h
  obtain ⟨_, _, h⟩ := bind_eq_ok h
  obtain ⟨value, hvalue, _⟩ := bind_eq_ok h
  obtain ⟨_, rfl, _⟩ := v.judged.of_ok hvalue
  exact hvalue

theorem treeWith_eq_of_unplaced_eq {v w : Expr String} (h : v.unplaced = w.unplaced)
    {accepts accepts' : Node → Bool} {t t' : Node} (hv : v.treeWith accepts = .ok t)
    (hw : w.treeWith accepts' = .ok t') : t = t' := by
  have hv' : v.unplaced.treeWith accepts = .ok t := by
    rw [unplaced, treeWith_relocate, hv]
    rfl
  have hw' : w.unplaced.treeWith accepts' = .ok t' := by
    rw [unplaced, treeWith_relocate, hw]
    rfl
  obtain ⟨_, htree, _⟩ := v.unplaced.judged.of_ok hv'
  obtain ⟨_, htree', _⟩ := w.unplaced.judged.of_ok hw'
  rw [htree, htree', h]

end Expr

namespace Procedure

variable [ContentHash] {ns : Namespace} {e : Expr String} {t : Node}

theorem ofExpr?_of_makes {accepts : Node → Bool} {name : Option String} {v : Expr String}
    (hm : e.Makes name v) (h : e.treeWith accepts = .ok t) :
    ∃ body, v.treeWith accepts = .ok body ∧
      ofExpr? ns e t = some ⟨name, body, .ofNode body, ns⟩ := by
  cases hm with
  | alone p body s => exact ⟨t, h, rfl⟩
  | bound n p body s s' =>
    obtain ⟨hfree, rfl, _⟩ := Expr.judged _ |>.of_ok h
    refine ⟨_, Expr.treeWith_value h, ?_⟩
    -- the definition was not refused, so the first field of this name is that of the value
    simp only [ofExpr?, Expr.functionIn?, Expr.isProgram, if_true, id,
      Expr.field?_node_define hfree, Option.map_some]

theorem makes_of_ofExpr? {p : Procedure String Namespace} (h : ofExpr? ns e t = some p) :
    ∃ name v, e.Makes name v := by
  rcases ofExpr?_cases h with ⟨q, body, s, rfl, _⟩ | ⟨n, v, s, _, rfl, hv, _, _⟩
  · exact ⟨_, _, .alone q body s⟩
  · cases v with
    | program q body s' => exact ⟨_, _, .bound n q body s' s⟩
    | _ => cases hv

end Procedure

namespace Form

variable [ContentHash] {o : Options} {e : Expr String} {f : Form String Namespace}

theorem procedure_of_ofExpr (h : ofExpr o e = .ok f) :
    f.procedure = Procedure.ofExpr? o.ns e f.tree := by
  unfold ofExpr at h
  split at h
  · cases h
    rfl
  · cases h

theorem procedure_of_makes (h : ofExpr o e = .ok f) {name : Option String} {v : Expr String}
    (hm : e.Makes name v) : ∃ body, v.treeWith o.test = .ok body ∧
      f.procedure = some ⟨name, body, .ofNode body, o.ns⟩ := by
  rw [procedure_of_ofExpr h]
  exact Procedure.ofExpr?_of_makes hm (tree_of_ofExpr h)

theorem isSome_procedure_iff (h : ofExpr o e = .ok f) :
    f.procedure.isSome = true ↔ ∃ name v, e.Makes name v := by
  constructor
  · intro hsome
    obtain ⟨p, hp⟩ := Option.isSome_iff_exists.mp hsome
    rw [procedure_of_ofExpr h] at hp
    exact Procedure.makes_of_ofExpr? hp
  · rintro ⟨name, v, hm⟩
    obtain ⟨body, _, hprocedure⟩ := procedure_of_makes h hm
    rw [hprocedure]
    rfl

end Form

/-! ## sources -/

/-- what a procedure is made of, without its name and its scope -/
def Procedure.content {ν σ : Type} (p : Procedure ν σ) : Node × Identity := (p.body, p.identity)

namespace Session

theorem content_link (s : Session) (f : Form String Namespace) :
    (s.link f).procedure.map Procedure.content = f.procedure.map Procedure.content := by
  rw [link, Option.map_map]
  rfl

section
variable [ContentHash]

/-- the form that a session makes has the procedure of the form, but for the handles -/
theorem content_form {s : Session} {o : Options} {e : Expr String} {f : Form String Namespace}
    (h : Form.ofExpr o e = .ok f) (hknown : ∀ n ∈ e.names, s.interner.Knows n) :
    ∃ g, (s.form o (e.map s.interner.nameOf)).1 = .ok g ∧
      g.procedure.map Procedure.content = f.procedure.map Procedure.content := by
  obtain ⟨texts, _, hform⟩ := transcribes_form h
  have hgrows := s.grows_after texts (requests f)
  have hhandles : e.map (s.after texts (requests f)).interner.nameOf = e.map s.interner.nameOf :=
    Expr.map_congr e fun n hn => Interner.nameOf_of_extends (hknown n hn) hgrows.interner
  have hrun : s.form o (e.map (s.after texts (requests f)).interner.nameOf) = _ :=
    hform s _ hknown (.refl _)
  rw [hhandles] at hrun
  exact ⟨_, congrArg Prod.fst hrun, content_link _ f⟩

theorem forms_of_compile_eq {s : Session} {o : Options} {source : String}
    {gs : List (Form Name ScopeId)} (h : (s.compile o source).1 = .ok gs) :
    ∃ es fs later, TraceFront.parse source = .ok es ∧ Form.ofExprs o es = (fs, none) ∧
      gs = fs.map (link later) ∧ (s.compile o source).2 = later := by
  cases hcompile : TraceFront.compile o source with
  | error e =>
    obtain ⟨texts, _, hrun⟩ := (transcribes_compile_error hcompile).run
    rw [hrun] at h
    cases h
  | ok fs =>
    obtain ⟨es, hparse, hforms⟩ := forms_of_compile hcompile
    obtain ⟨texts, _, hrun⟩ := (transcribes_compile hcompile).run
    rw [hrun] at h
    cases h
    exact ⟨es, fs, _, hparse, hforms, rfl, congrArg Prod.snd (hrun s)⟩

theorem exists_of_makes {s : Session} {o : Options} {source : String} {es : List (Expr String)}
    (hparse : TraceFront.parse source = .ok es) {gs : List (Form Name ScopeId)}
    (h : (s.compile o source).1 = .ok gs) {i : Nat} {e : Expr String} (he : es[i]? = some e)
    {name : Option String} {v : Expr String} (hm : e.Makes name v) :
    ∃ g p, gs[i]? = some g ∧ g.procedure = some p ∧ v.treeWith o.test = .ok p.body ∧
      p.identity = .ofNode p.body := by
  obtain ⟨es', fs, later, hparse', hforms, rfl, _⟩ := forms_of_compile_eq h
  cases Except.ok.inj (hparse.symm.trans hparse')
  have hmade : List.Forall₂ (Form.ofExpr o · = .ok ·) es fs :=
    forall₂_of_ofExprs hforms fun _ _ _ hf => hf
  obtain ⟨hlength, hall⟩ := List.forall₂_iff_get.mp hmade
  obtain ⟨hi, rfl⟩ := List.getElem?_eq_some_iff.mp he
  have hi' : i < fs.length := hlength ▸ hi
  obtain ⟨body, hbody, hprocedure⟩ := Form.procedure_of_makes (hall i hi hi') hm
  refine ⟨later.link fs[i], later.linkProcedure ⟨name, body, .ofNode body, o.ns⟩, ?_, ?_, hbody, rfl⟩
  · rw [List.getElem?_map, List.getElem?_eq_getElem hi']
    rfl
  · exact congrArg (Option.map later.linkProcedure) hprocedure

end

end Session

/-- **A procedure is its function literal.**  A form that compiles has a procedure exactly if it is a
function literal or defines a single name as one.  The body is then the tree that the literal has when
it is compiled alone, and the identity is that of this tree; handles change neither.  So equal
literals, at whatever places in whatever sources, have procedures of one body and one identity: bound
to any names or to none, among any other forms, and compiled by any sessions with any options. -/
theorem procedure_of_literal [ContentHash] :
    (∀ (o : Options) (e : Expr String) (f : Form String Namespace), Form.ofExpr o e = .ok f →
      (f.procedure.isSome = true ↔ ∃ name v, e.Makes name v) ∧
      (∀ name v, e.Makes name v → ∃ body, v.treeWith o.test = .ok body ∧
        f.procedure = some ⟨name, body, .ofNode body, o.ns⟩) ∧
      ∀ s : Session, (∀ n ∈ e.names, s.interner.Knows n) →
        ∃ g, (s.form o (e.map s.interner.nameOf)).1 = .ok g ∧
          g.procedure.map Procedure.content = f.procedure.map Procedure.content) ∧
    ∀ (s₁ s₂ : Session) (o₁ o₂ : Options) (source₁ source₂ : String) (es₁ es₂ : List (Expr String))
      (gs₁ gs₂ : List (Form Name ScopeId)),
      parse source₁ = .ok es₁ → parse source₂ = .ok es₂ →
      (s₁.compile o₁ source₁).1 = .ok gs₁ → (s₂.compile o₂ source₂).1 = .ok gs₂ →
      ∀ (i j : Nat) (e₁ e₂ : Expr String) (name₁ name₂ : Option String) (v₁ v₂ : Expr String),
        es₁[i]? = some e₁ → es₂[j]? = some e₂ →
        e₁.Makes name₁ v₁ → e₂.Makes name₂ v₂ → v₁.unplaced = v₂.unplaced →
        ∃ g₁ g₂ p₁ p₂, gs₁[i]? = some g₁ ∧ gs₂[j]? = some g₂ ∧
          g₁.procedure = some p₁ ∧ g₂.procedure = some p₂ ∧
          p₁.body = p₂.body ∧ p₁.identity = p₂.identity := by
  constructor
  · intro o e f hf
    exact ⟨Form.isSome_procedure_iff hf, fun _ _ hm => Form.procedure_of_makes hf hm,
      fun s => Session.content_form hf⟩
  · intro s₁ s₂ o₁ o₂ source₁ source₂ es₁ es₂ gs₁ gs₂ hparse₁ hparse₂ hcompile₁ hcompile₂
      i j e₁ e₂ name₁ name₂ v₁ v₂ he₁ he₂ hm₁ hm₂ hv
    obtain ⟨g₁, p₁, hg₁, hp₁, hbody₁, hidentity₁⟩ :=
      Session.exists_of_makes hparse₁ hcompile₁ he₁ hm₁
    obtain ⟨g₂, p₂, hg₂, hp₂, hbody₂, hidentity₂⟩ :=
      Session.exists_of_makes hparse₂ hcompile₂ he₂ hm₂
    have hbody : p₁.body = p₂.body := Expr.treeWith_eq_of_unplaced_eq hv hbody₁ hbody₂
    refine ⟨g₁, g₂, p₁, p₂, hg₁, hg₂, hp₁, hp₂, hbody, ?_⟩
    rw [hidentity₁, hidentity₂, hbody]

/-- a function alone, and under the name of a field among other forms, in another namespace and with
its nodes not tested -/
theorem procedure_of_literal_alone_and_bound :
    let o : Options := ⟨⟨"lib"⟩, false, false, Node.isWellFormed⟩
    let s := (Session.empty.compile .default "(program [x] x)").2
    let v : Expr String := .program (.tuple [.name "x"]) [.var "x" ⟨28, 29⟩] ⟨15, 30⟩
    (∃ f body, Form.ofExpr o (.define (.name "body") v ⟨2, 31⟩) = .ok f ∧
      v.treeWith o.test = .ok body ∧
      f.procedure = some ⟨some "body", body, .ofNode body, ⟨"lib"⟩⟩) ∧
    ∃ gs₁ gs₂ g₁ g₂ p₁ p₂, (Session.empty.compile .default "(program [x] x)").1 = .ok gs₁ ∧
      (s.compile o "a (define body (program [x] x)) b").1 = .ok gs₂ ∧
      gs₁[0]? = some g₁ ∧ gs₂[1]? = some g₂ ∧ g₁.procedure = some p₁ ∧ g₂.procedure = some p₂ ∧
      p₁.body = p₂.body ∧ p₁.identity = p₂.identity := by
  intro o s v
  let v₁ : Expr String := .program (.tuple [.name "x"]) [.var "x" ⟨13, 14⟩] ⟨0, 15⟩
  let e : Expr String := .define (.name "body") v ⟨2, 31⟩
  have hread₁ : read "(program [x] x)" = .ok [.list [.symbol "program" ⟨1, 8⟩,
      .vector [.symbol "x" ⟨10, 11⟩] ⟨9, 12⟩, .symbol "x" ⟨13, 14⟩] ⟨0, 15⟩] := by
    decide +kernel
  have hread₂ : read "a (define body (program [x] x)) b" = .ok [.symbol "a" ⟨0, 1⟩,
      .list [.symbol "define" ⟨3, 9⟩, .symbol "body" ⟨10, 14⟩, .list [.symbol "program" ⟨16, 23⟩,
        .vector [.symbol "x" ⟨25, 26⟩] ⟨24, 27⟩, .symbol "x" ⟨28, 29⟩] ⟨15, 30⟩] ⟨2, 31⟩,
      .symbol "b" ⟨32, 33⟩] := by
    decide +kernel
  have hparse₁ : parse "(program [x] x)" = .ok [v₁] := parse_of_read hread₁ rfl
  have hparse₂ : parse "a (define body (program [x] x)) b" =
      .ok [.var "a" ⟨0, 1⟩, e, .var "b" ⟨32, 33⟩] := parse_of_read hread₂ rfl
  have hmakes : e.Makes (some "body") v := .bound _ _ _ _ _
  have hcompile₁ : ∃ fs, compile .default "(program [x] x)" = .ok fs := by
    rw [compile, hparse₁]
    exact ⟨_, rfl⟩
  have hcompile₂ : ∃ fs, compile o "a (define body (program [x] x)) b" = .ok fs := by
    rw [compile, hparse₂]
    exact ⟨_, rfl⟩
  obtain ⟨_, hcompile₁⟩ := hcompile₁
  obtain ⟨_, hcompile₂⟩ := hcompile₂
  have hstart : Session.empty.Reachable := .start
  have hlater : s.Reachable := .compile _ _ hstart
  obtain ⟨gs₁, hgs₁, _⟩ := Session.compile_of_ok hstart.valid hcompile₁
  obtain ⟨gs₂, hgs₂, _⟩ := Session.compile_of_ok hlater.valid hcompile₂
  constructor
  · obtain ⟨body, hbody, hprocedure⟩ := (procedure_of_literal.1 o e _ rfl).2.1 _ _ hmakes
    exact ⟨_, body, rfl, hbody, hprocedure⟩
  · obtain ⟨g₁, g₂, p₁, p₂, h⟩ := procedure_of_literal.2 Session.empty s .default o _ _ _ _ gs₁ gs₂
      hparse₁ hparse₂ hgs₁ hgs₂ 0 1 v₁ e _ _ v₁ v rfl rfl (.alone _ _ _) hmakes rfl
    exact ⟨gs₁, gs₂, g₁, g₂, p₁, p₂, hgs₁, hgs₂, h⟩

end TraceFront
