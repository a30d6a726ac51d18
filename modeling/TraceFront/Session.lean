import TraceFront.Compile.Form
import TraceFront.Named.OfDatum
import TraceFront.Named.OfExpr

/-!
# Sessions

A session compiles sources one after the other with one interner and one table of scopes, and gives
out handles for names and scopes.  All terms hold handles.  The interner takes in texts where they
are met: by the reader, by a new form parser, and by desugaring.  A form is compiled to its tree
first; nothing is taken in for a form that has none.  A procedure asks for its scope when its form
compiles.  What was taken in before an error stays.

* `Session.read`, `Session.parse`   the datums and the expressions of a source;
* `Session.tree`, `Session.desugar` the tree and the core term of an expression;
* `Session.form`                    one compiled form;
* `Session.compile`                 the compiled forms of a source;
* `Session.spell`                   a form with texts and namespaces for handles.
-/

namespace TraceFront

/-- what sources of one session share -/
structure Session where
  interner : Interner
  scopes : ScopeTable

namespace Session

def empty : Session := ⟨.empty, .empty⟩

def internAll (s : Session) (texts : List String) : Session :=
  { s with interner := s.interner.internAll texts }

def resolve (s : Session) (ns : Namespace) : Session :=
  { s with scopes := (s.scopes.resolve ns).2 }

def read (s : Session) (source : String) : Except SourceError (List (Datum Name)) × Session :=
  match lex source with
  | .error e => (.error (.lex e), s)
  | .ok ts =>
    let (r, interner) := (readNames ts).run.run s.interner
    (r.mapError .read, { s with interner })

/-- the expressions of a source; a form parser is made when reading has succeeded -/
def parse (s : Session) (source : String) : Except SourceError (List (Expr Name)) × Session :=
  match s.read source with
  | (.error e, s) => (.error e, s)
  | (.ok ds, s) =>
    let (r, interner) := (FormParser.new >>= fun v => ofExcept (v.parse ds)).run.run s.interner
    (r.mapError .form, { s with interner })

/-- the tree of an expression.  Handles are looked up and never compared, so that it is the tree of
the expression with their texts. -/
def tree (s : Session) (o : Options) (e : Expr Name) : Except TreeError Node :=
  (e.map s.interner.textOf).treeWith o.test

def desugar (s : Session) (e : Expr Name) : (Core Name × List Diagnostic) × Session :=
  let (core, d) := e.toCore.run ⟨s.interner, []⟩
  ((core, d.warnings), { s with interner := d.interner })

section
variable [ContentHash]

def procedure (s : Session) (ns : Namespace) (e : Expr Name) (tree : Node) :
    Option (Procedure Name ScopeId) × Session :=
  match e.functionIn? s.interner.textOf tree with
  | none => (none, s)
  | some (name, body) =>
    let (scope, scopes) := s.scopes.resolve ns
    (some ⟨name, body, .ofNode body, scope⟩, { s with scopes })

def form (s : Session) (o : Options) (e : Expr Name) :
    Except TreeError (Form Name ScopeId) × Session :=
  match s.tree o e with
  | .error err => (.error err, s)
  | .ok tree =>
    let ((core, warnings), s) := s.desugar e
    let (procedure, s) := s.procedure o.ns e tree
    (.ok ⟨tree, core, procedure, if o.keepWarnings then warnings else []⟩, s)

/-- forms one after the other, up to the first that fails -/
def forms (s : Session) (o : Options) :
    List (Expr Name) → Except TreeError (List (Form Name ScopeId)) × Session
  | [] => (.ok [], s)
  | e :: es =>
    match s.form o e with
    | (.error err, s) => (.error err, s)
    | (.ok f, s) =>
      let (r, s) := forms s o es
      (r.map (f :: ·), s)

/-- the forms of a source, or its first error -/
def compile (s : Session) (o : Options) (source : String) :
    Except CompileError (List (Form Name ScopeId)) × Session :=
  match s.parse source with
  | (.error e, s) => (.error (.source e), s)
  | (.ok es, s) =>
    let (r, s) := s.forms o es
    (r.mapError .tree, s)

end

/-! ## texts for handles -/

def spellProcedure (s : Session) (p : Procedure Name ScopeId) :
    Procedure String (Option Namespace) :=
  ⟨p.name.map s.interner.textOf, p.body, p.identity, s.scopes.namespaceOf? p.scope⟩

/-- the form with the texts of its names and the namespace of its scope -/
def spell (s : Session) (f : Form Name ScopeId) : Form String (Option Namespace) :=
  ⟨f.tree, f.core.map s.interner.textOf, f.procedure.map s.spellProcedure, f.warnings⟩

end Session

end TraceFront
