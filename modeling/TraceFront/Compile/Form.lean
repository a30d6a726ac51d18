import TraceFront.Compile.Error
import TraceFront.Core.OfExpr
import TraceFront.Scope
import TraceFront.Tree.Identity

/-!
# Compiled forms

A top-level form is compiled twice over, to its tree and to its core term.  A function, alone or
under a single name, also makes a procedure, with the identity of its tree and the scope of the
namespace.  Names and scopes are given by their texts here; a session has handles for them.

* `Options`          how forms are compiled;
* `Expr.functionIn?` the function in a form;
* `Form.ofExpr`      one compiled form;
* `Form.ofExprs`     forms one after the other, up to the first that fails;
* `compile`          the forms of a source.
-/

namespace TraceFront

structure Options where
  /-- the namespace whose scope procedures capture -/
  ns : Namespace
  /-- each node is tested -/
  checkNodes : Bool
  /-- warnings are kept -/
  keepWarnings : Bool
  /-- the test of a node -/
  accepts : Node → Bool

namespace Options

/-- the namespace for users, with nodes tested for being well formed and warnings kept -/
def default : Options := ⟨.user, true, true, Node.isWellFormed⟩

/-- the test that is made: none if nodes are not checked -/
def test (o : Options) (n : Node) : Bool := !o.checkNodes || o.accepts n

end Options

/-- a compiled function, with names of type `ν` and scopes of type `σ` -/
structure Procedure (ν σ : Type) where
  /-- the name that the function is bound to, if any -/
  name : Option ν
  /-- the tree of the function -/
  body : Node
  identity : Identity
  scope : σ

/-- a compiled top-level form, with names of type `ν` and scopes of type `σ` -/
structure Form (ν σ : Type) where
  tree : Node
  core : Core ν
  procedure : Option (Procedure ν σ)
  warnings : List Diagnostic

/-- the function in a form with the given tree, which is a function itself or the definition of a
single name as one: the name that it is bound to, and its own tree -/
def Expr.functionIn? {ν : Type} (text : ν → String) (e : Expr ν) (tree : Node) :
    Option (Option ν × Node) :=
  match e with
  | .program _ _ _ => some (none, tree)
  | .define (.name n) v _ =>
    if v.isProgram then (tree.field? (text n)).map fun body => (some n, body) else none
  | _ => none

variable [ContentHash]

/-- the procedure that an expression with the given tree makes, if there is a function in it -/
def Procedure.ofExpr? (ns : Namespace) (e : Expr String) (tree : Node) :
    Option (Procedure String Namespace) :=
  (e.functionIn? id tree).map fun f => ⟨f.1, f.2, .ofNode f.2, ns⟩

/-- a procedure is made from a function itself, or from the value of a definition -/
theorem Procedure.ofExpr?_cases {ns : Namespace} {e : Expr String} {tree : Node}
    {p : Procedure String Namespace} (h : Procedure.ofExpr? ns e tree = some p) :
    (∃ q body s, e = .program q body s ∧ p = ⟨none, tree, .ofNode tree, ns⟩) ∨
    ∃ n v s body, e = .define (.name n) v s ∧ v.isProgram = true ∧ tree.field? n = some body ∧
      p = ⟨some n, body, .ofNode body, ns⟩ := by
  obtain ⟨f, hf, rfl⟩ := Option.map_eq_some_iff.mp h
  unfold Expr.functionIn? at hf
  split at hf
  · rename_i q body s
    cases hf
    exact .inl ⟨q, body, s, rfl, rfl⟩
  · rename_i n v s
    split at hf
    · rename_i hv
      obtain ⟨body, hbody, rfl⟩ := Option.map_eq_some_iff.mp hf
      exact .inr ⟨n, v, s, body, rfl, hv, hbody, rfl⟩
    · cases hf
  · cases hf

namespace Form

def ofExpr (o : Options) (e : Expr String) : Except TreeError (Form String Namespace) :=
  match e.treeWith o.test with
  | .ok tree =>
    .ok ⟨tree, e.core, Procedure.ofExpr? o.ns e tree, if o.keepWarnings then e.warnings else []⟩
  | .error err => .error err

/-- forms one after the other, up to the first that fails, and its error -/
def ofExprs (o : Options) : List (Expr String) → List (Form String Namespace) × Option TreeError
  | [] => ([], none)
  | e :: es =>
    match ofExpr o e with
    | .ok f => let (fs, err) := ofExprs o es; (f :: fs, err)
    | .error err => ([], some err)

end Form

/-- all forms of a source, or its first error -/
def compile (o : Options) (source : String) :
    Except CompileError (List (Form String Namespace)) :=
  match parse source with
  | .error e => .error (.source e)
  | .ok es =>
    match Form.ofExprs o es with
    | (fs, none) => .ok fs
    | (_, some e) => .error (.tree e)

end TraceFront
