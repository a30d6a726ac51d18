import Mathlib.Data.List.TakeWhile
import TraceFront.Proofs.Compile.Procedures

/-!
# One scope for each namespace

A scope is made form by form, while a later form may still stop the compilation.  So a compilation
that fails can have made a scope, but only that of its own namespace, and only by a function before
the form that fails.

* `mem_ofExprs`              what is compiled are the forms before the first that fails;
* `Call`, `scopesAfter`      compilations one after the other that share their scopes alone;
* `Call.CompilesFunction`    a function is compiled by the call, whatever comes after it;
* `valid_scopesAfter`        scopes hold the namespaces that they were asked for;
* `mem_scopesAfter`          the namespaces that have a scope after a sequence of calls;
* `lookup_of_gives`          the scopes of procedures are those of the namespaces of their calls.
-/

namespace TraceFront

/-! ## forms of one namespace -/

section
variable [ContentHash]

/-- the expression has a compiled form -/
def Expr.compiles (o : Options) (e : Expr String) : Bool := (Form.ofExpr o e).isOk

theorem Expr.compiles_iff {o : Options} {e : Expr String} :
    e.compiles o = true ↔ ∃ f, Form.ofExpr o e = .ok f := by
  unfold compiles
  cases Form.ofExpr o e with
  | ok f => simp [Except.isOk, Except.toBool]
  | error err => simp [Except.isOk, Except.toBool]

namespace Form

theorem mem_ofExprs {o : Options} {es : List (Expr String)} {f : Form String Namespace} :
    f ∈ (ofExprs o es).1 ↔ ∃ e ∈ es.takeWhile (·.compiles o), ofExpr o e = .ok f := by
  induction es with
  | nil => simp [ofExprs]
  | cons e es ih =>
    cases he : ofExpr o e with
    | error err =>
      have hstop : e.compiles o = false := by simp [Expr.compiles, he, Except.isOk, Except.toBool]
      simp [ofExprs, he, hstop]
    | ok g =>
      have hgo : e.compiles o = true := Expr.compiles_iff.mpr ⟨g, he⟩
      have hforms : (ofExprs o (e :: es)).1 = g :: (ofExprs o es).1 := by rw [ofExprs, he]
      rw [hforms, List.takeWhile_cons, if_pos hgo, List.mem_cons, List.exists_mem_cons_iff, ih, he]
      simp [eq_comm]

theorem any_procedure_ofExprs {o : Options} {es : List (Expr String)} :
    (ofExprs o es).1.any (·.procedure.isSome) = true ↔
      ∃ e ∈ es.takeWhile (·.compiles o), ∃ name v, e.Makes name v := by
  rw [List.any_eq_true]
  constructor
  · rintro ⟨f, hf, hsome⟩
    obtain ⟨e, he, hform⟩ := mem_ofExprs.mp hf
    exact ⟨e, he, (isSome_procedure_iff hform).mp hsome⟩
  · rintro ⟨e, he, hm⟩
    obtain ⟨f, hform⟩ := Expr.compiles_iff.mp (List.mem_takeWhile_imp he)
    exact ⟨f, mem_ofExprs.mpr ⟨e, he, hform⟩, (isSome_procedure_iff hform).mpr hm⟩

/-- all procedures of a source ask for the scope of one namespace -/
theorem scope_of_mem_ofExprs {o : Options} {es : List (Expr String)} {f : Form String Namespace}
    (hf : f ∈ (ofExprs o es).1) {p : Procedure String Namespace} (hp : f.procedure = some p) :
    p.scope = o.ns := by
  obtain ⟨e, _, hform⟩ := mem_ofExprs.mp hf
  obtain ⟨name, v, hm⟩ := (isSome_procedure_iff hform).mp (Option.isSome_of_eq_some hp)
  obtain ⟨body, _, hmade⟩ := procedure_of_makes hform hm
  rw [hmade] at hp
  cases hp
  rfl

end Form

/-! ## calls -/

/-- a compilation with an interner and options of its own -/
structure Call where
  interner : Interner
  options : Options
  source : String

namespace Call

/-- the outcome of the call and the scopes after it -/
def run (c : Call) (t : ScopeTable) :
    Except CompileError (List (Form Name ScopeId)) × ScopeTable :=
  let r := Session.compile ⟨c.interner, t⟩ c.options c.source
  (r.1, r.2.scopes)

/-- the expressions before the first that does not compile, which are all if there is none; no
expressions if the source cannot be read or a form is not recognized -/
def compiled (c : Call) : List (Expr String) :=
  match parse c.source with
  | .error _ => []
  | .ok es => es.takeWhile (·.compiles c.options)

/-- a function, alone or under a single name, is compiled -/
def CompilesFunction (c : Call) : Prop := ∃ e ∈ c.compiled, ∃ name v, e.Makes name v

/-- the namespaces whose scopes the call asks for -/
def requests (c : Call) : List Namespace :=
  (Session.formsBefore c.options c.source).flatMap Session.requests

theorem run_snd (c : Call) (t : ScopeTable) : (c.run t).2 = t.resolveAll c.requests :=
  Session.scopes_compile _ _ _

/-- a call asks for the scope of its namespace, if it compiles a function, and for no other -/
theorem mem_requests {c : Call} {ns : Namespace} :
    ns ∈ c.requests ↔ c.options.ns = ns ∧ c.CompilesFunction := by
  unfold requests Session.formsBefore CompilesFunction compiled
  cases hparse : parse c.source with
  | error e => simp
  | ok es =>
    simp only
    rw [← Form.any_procedure_ofExprs, List.any_eq_true, List.mem_flatMap]
    constructor
    · rintro ⟨f, hf, hns⟩
      obtain ⟨p, hp, rfl⟩ := Option.map_eq_some_iff.mp (Option.mem_toList.mp hns)
      exact ⟨(Form.scope_of_mem_ofExprs hf hp).symm, f, hf, Option.isSome_of_eq_some hp⟩
    · rintro ⟨rfl, f, hf, hsome⟩
      obtain ⟨p, hp⟩ := Option.isSome_iff_exists.mp hsome
      refine ⟨f, hf, ?_⟩
      rw [Session.requests, hp, ← Form.scope_of_mem_ofExprs hf hp]
      exact List.mem_singleton_self _

/-- a procedure has the scope that its namespace has after the call -/
theorem lookup_of_run {c : Call} {t : ScopeTable} {gs : List (Form Name ScopeId)}
    (h : (c.run t).1 = .ok gs) {g : Form Name ScopeId} (hg : g ∈ gs) {p : Procedure Name ScopeId}
    (hp : g.procedure = some p) : (c.run t).2.handles.lookup c.options.ns = some p.scope := by
  obtain ⟨es, fs, later, hparse, hforms, rfl, hlater⟩ := Session.forms_of_compile_eq h
  obtain rfl : (Form.ofExprs c.options es).1 = fs := by rw [hforms]
  obtain ⟨f, hf, rfl⟩ := List.mem_map.mp hg
  obtain ⟨q, hq, rfl⟩ := Option.map_eq_some_iff.mp hp
  have hscope : q.scope = c.options.ns := Form.scope_of_mem_ofExprs hf hq
  have hasked : c.options.ns ∈ c.requests := by
    refine mem_requests.mpr ⟨rfl, ?_⟩
    unfold CompilesFunction compiled
    rw [hparse]
    exact Form.any_procedure_ofExprs.mp
      (List.any_eq_true.mpr ⟨f, hf, Option.isSome_of_eq_some hq⟩)
  have hmem : c.options.ns ∈ (c.run t).2.namespaces := by
    rw [run_snd]
    exact ScopeTable.mem_namespaces_resolveAll.mpr (.inr hasked)
  obtain ⟨k, hk⟩ := ScopeTable.lookup_of_mem hmem
  have hresolve : ((c.run t).2.resolve c.options.ns).1 = k := by rw [ScopeTable.resolve, hk]
  have htable : (c.run t).2 = later.scopes := congrArg Session.scopes hlater
  rw [hk, ← hresolve, ← hscope, htable]
  rfl

end Call

/-- the scopes after calls, one after the other -/
def scopesAfter (t : ScopeTable) (calls : List Call) : ScopeTable :=
  calls.foldl (fun t c => (c.run t).2) t

theorem scopesAfter_cons (t : ScopeTable) (c : Call) (calls : List Call) :
    scopesAfter t (c :: calls) = scopesAfter (c.run t).2 calls := rfl

theorem scopesAfter_append (t : ScopeTable) (calls calls' : List Call) :
    scopesAfter t (calls ++ calls') = scopesAfter (scopesAfter t calls) calls' :=
  List.foldl_append

theorem mem_scopesAfter {t : ScopeTable} {calls : List Call} {ns : Namespace} :
    ns ∈ (scopesAfter t calls).namespaces ↔
      ns ∈ t.namespaces ∨ ∃ c ∈ calls, c.options.ns = ns ∧ c.CompilesFunction := by
  induction calls generalizing t with
  | nil => simp [scopesAfter]
  | cons c calls ih =>
    rw [scopesAfter_cons, ih, c.run_snd, ScopeTable.mem_namespaces_resolveAll, Call.mem_requests,
      List.exists_mem_cons_iff, or_assoc]

/-- a call keeps scopes with the namespaces that they were asked for, and so do calls -/
theorem valid_scopesAfter {t : ScopeTable} (ht : t.Valid) (calls : List Call) :
    (scopesAfter t calls).Valid := by
  induction calls generalizing t with
  | nil => exact ht
  | cons c calls ih =>
    rw [scopesAfter_cons, c.run_snd]
    exact ih (ht.resolveAll _)

theorem extends_scopesAfter (t : ScopeTable) (calls : List Call) :
    t.Extends (scopesAfter t calls) := by
  induction calls generalizing t with
  | nil => exact .refl t
  | cons c calls ih =>
    have hfirst : t.Extends (c.run t).2 := c.run_snd t ▸ t.extends_resolveAll c.requests
    exact hfirst.trans (ih _)

/-- one of the calls, made in the namespace, succeeds and gives the procedure -/
def Gives (calls : List Call) (ns : Namespace) (p : Procedure Name ScopeId) : Prop :=
  ∃ earlier c later gs g, calls = earlier ++ c :: later ∧ c.options.ns = ns ∧
    (c.run (scopesAfter .empty earlier)).1 = .ok gs ∧ g ∈ gs ∧ g.procedure = some p

theorem lookup_of_gives {calls : List Call} {ns : Namespace} {p : Procedure Name ScopeId}
    (h : Gives calls ns p) : (scopesAfter .empty calls).handles.lookup ns = some p.scope := by
  obtain ⟨earlier, c, later, gs, g, rfl, rfl, hrun, hg, hp⟩ := h
  rw [scopesAfter_append, scopesAfter_cons]
  exact ScopeTable.lookup_of_extends (extends_scopesAfter _ later) (Call.lookup_of_run hrun hg hp)

/-- a call that succeeds gives a procedure for each of its functions -/
theorem gives_of_makes {c : Call} {es : List (Expr String)} (hparse : parse c.source = .ok es)
    {fs : List (Form String Namespace)} (h : compile c.options c.source = .ok fs) {i : Nat}
    {e : Expr String} (he : es[i]? = some e) {name : Option String} {v : Expr String}
    (hm : e.Makes name v) (earlier later : List Call) :
    ∃ p, Gives (earlier ++ c :: later) c.options.ns p := by
  let s : Session := ⟨c.interner, scopesAfter .empty earlier⟩
  have hs : s.scopes.Valid := valid_scopesAfter ScopeTable.valid_empty earlier
  obtain ⟨gs, hgs, _⟩ := Session.compile_of_ok hs h
  obtain ⟨g, p, hg, hp, _⟩ := Session.exists_of_makes hparse hgs he hm
  exact ⟨p, earlier, c, later, gs, g, rfl, rfl, hgs, List.mem_of_getElem? hg, hp⟩

/-- **There is one scope for each namespace.**  Let calls share their scopes, with none to begin with.
Procedures that they give have the same scope exactly if they are of the same namespace, and the scope
holds that namespace, as does every other scope in the table the one that it is found by.  The
namespaces that have a scope are those of the calls that compile a function, even if a later form of
the source fails, and each of them has one. -/
theorem one_scope_per_namespace (calls : List Call) :
    (∀ ns₁ ns₂ p₁ p₂, Gives calls ns₁ p₁ → Gives calls ns₂ p₂ →
      (p₁.scope = p₂.scope ↔ ns₁ = ns₂)) ∧
    (∀ ns p, Gives calls ns p → (scopesAfter .empty calls).scope? p.scope = some ⟨ns⟩) ∧
    (∀ ns h, (ns, h) ∈ (scopesAfter .empty calls).handles →
      (scopesAfter .empty calls).scope? h = some ⟨ns⟩) ∧
    (∀ ns, ns ∈ (scopesAfter .empty calls).namespaces ↔
      ∃ c ∈ calls, c.options.ns = ns ∧ c.CompilesFunction) ∧
    (scopesAfter .empty calls).namespaces.Nodup := by
  have hvalid : (scopesAfter .empty calls).Valid := valid_scopesAfter ScopeTable.valid_empty calls
  refine ⟨?_, ?_, hvalid.holds, ?_, hvalid.nodup⟩
  · intro ns₁ ns₂ p₁ p₂ h₁ h₂
    exact hvalid.scope_eq_iff (lookup_of_gives h₁) (lookup_of_gives h₂)
  · intro ns p h
    exact hvalid.holds ns _ (ScopeTable.mem_of_lookup (lookup_of_gives h))
  · intro ns
    rw [mem_scopesAfter]
    simp [ScopeTable.empty, ScopeTable.namespaces]

end

/-- two calls in one namespace, between them one that fails after a function and one whose source
cannot be read -/
theorem one_scope_per_namespace_across_failures :
    let call (ns source : String) : Call := ⟨.empty, { Options.default with ns := ⟨ns⟩ }, source⟩
    let calls := [call "a" "(program x x)", call "b" "(program x x) (define pattern x)",
      call "c" "(", call "a" "(define f (program x x))"]
    (∃ p₁ p₂, Gives calls ⟨"a"⟩ p₁ ∧ Gives calls ⟨"a"⟩ p₂ ∧ p₁.scope = p₂.scope ∧
      (scopesAfter .empty calls).scope? p₁.scope = some ⟨⟨"a"⟩⟩) ∧
    compile { Options.default with ns := ⟨"b"⟩ } "(program x x) (define pattern x)" =
      .error (.tree (.fieldCollision "pattern" ⟨14, 32⟩)) ∧
    ⟨"b"⟩ ∈ (scopesAfter .empty calls).namespaces ∧
    ⟨"c"⟩ ∉ (scopesAfter .empty calls).namespaces := by
  intro call calls
  let f : Expr String := .program (.name "x") [.var "x" ⟨11, 12⟩] ⟨0, 13⟩
  let g : Expr String := .define (.name "pattern") (.var "x" ⟨30, 31⟩) ⟨14, 32⟩
  let e : Expr String := .define (.name "f") (.program (.name "x") [.var "x" ⟨21, 22⟩] ⟨10, 23⟩) ⟨0, 24⟩
  let d : Datum String := .list [.symbol "program" ⟨1, 8⟩, .symbol "x" ⟨9, 10⟩,
    .symbol "x" ⟨11, 12⟩] ⟨0, 13⟩
  have hread₁ : read "(program x x)" = .ok [d] := by decide +kernel
  have hread₂ : read "(program x x) (define pattern x)" = .ok [d, .list [.symbol "define" ⟨15, 21⟩,
      .symbol "pattern" ⟨22, 29⟩, .symbol "x" ⟨30, 31⟩] ⟨14, 32⟩] := by
    decide +kernel
  have hread₃ : read "(" = .error (.read (.unclosed .round ⟨0, 1⟩)) := by decide +kernel
  have hread₄ : read "(define f (program x x))" = .ok [.list [.symbol "define" ⟨1, 7⟩,
      .symbol "f" ⟨8, 9⟩, .list [.symbol "program" ⟨11, 18⟩, .symbol "x" ⟨19, 20⟩,
        .symbol "x" ⟨21, 22⟩] ⟨10, 23⟩] ⟨0, 24⟩] := by
    decide +kernel
  have hfirst : parse "(program x x)" = .ok [f] := parse_of_read hread₁ rfl
  have hsecond : parse "(program x x) (define pattern x)" = .ok [f, g] := parse_of_read hread₂ rfl
  have hthird : parse "(" = .error (.read (.unclosed .round ⟨0, 1⟩)) := by
    rw [parse, hread₃]
  have hfourth : parse "(define f (program x x))" = .ok [e] := parse_of_read hread₄ rfl
  have hok : ∃ fs, compile { Options.default with ns := ⟨"a"⟩ } "(program x x)" = .ok fs := by
    rw [compile, hfirst]
    exact ⟨_, rfl⟩
  have hok' : ∃ fs,
      compile { Options.default with ns := ⟨"a"⟩ } "(define f (program x x))" = .ok fs := by
    rw [compile, hfourth]
    exact ⟨_, rfl⟩
  have hfails : compile { Options.default with ns := ⟨"b"⟩ } "(program x x) (define pattern x)" =
      .error (.tree (.fieldCollision "pattern" ⟨14, 32⟩)) := by
    rw [compile, hsecond]
    rfl
  obtain ⟨_, hok⟩ := hok
  obtain ⟨_, hok'⟩ := hok'
  obtain ⟨p₁, h₁⟩ : ∃ p, Gives calls ⟨"a"⟩ p :=
    gives_of_makes (c := call "a" "(program x x)") hfirst hok (i := 0) rfl
      (.alone _ _ _) [] _
  obtain ⟨p₂, h₂⟩ : ∃ p, Gives calls ⟨"a"⟩ p :=
    gives_of_makes (c := call "a" "(define f (program x x))") hfourth hok'
      (i := 0) rfl (.bound _ _ _ _ _) [_, _, _] []
  obtain ⟨hscopes, hheld, _, htable, _⟩ := one_scope_per_namespace calls
  refine ⟨⟨p₁, p₂, h₁, h₂, (hscopes _ _ p₁ p₂ h₁ h₂).mpr rfl, hheld _ p₁ h₁⟩, hfails, ?_, ?_⟩
  · -- the function stands before the form that fails
    refine (htable _).mpr ⟨call "b" "(program x x) (define pattern x)", by simp [calls], rfl, f, ?_,
      none, f, .alone _ _ _⟩
    have hcompiles : f.compiles { Options.default with ns := ⟨"b"⟩ } = true := rfl
    simp only [Call.compiled, call, hsecond]
    rw [List.takeWhile_cons, if_pos hcompiles]
    exact List.mem_cons_self
  · intro hmem
    obtain ⟨c, hc, hns, d, hd, _⟩ := (htable _).mp hmem
    simp only [calls, call, List.mem_cons, List.not_mem_nil, or_false] at hc
    rcases hc with rfl | rfl | rfl | rfl
    · exact absurd hns (by decide)
    · exact absurd hns (by decide)
    · simp only [Call.compiled, hthird] at hd
      cases hd
    · exact absurd hns (by decide)

end TraceFront
