/-!
# Scopes of namespaces

A procedure captures the scope of the namespace it is compiled in.  Scopes are made on first
request, one for each namespace, and are told apart by handles.  A scope holds the name of its
namespace; the table finds the handle of a namespace without looking into any scope.

* `ScopeTable.resolve`       the scope of a namespace, made if it is new;
* `ScopeTable.scope?`        the scope that a handle stands for;
* `ScopeTable.namespaceOf?`  the namespace that this scope holds.
-/

namespace TraceFront

structure Namespace where
  text : String
deriving DecidableEq

namespace Namespace

/-- the namespace that is used when none is named -/
def user : Namespace := ⟨"user"⟩

instance : Inhabited Namespace := ⟨user⟩

end Namespace

/-- a scope, known by the order in which it was made -/
structure ScopeId where
  number : Nat
deriving DecidableEq, Inhabited

structure NamespaceScope where
  ns : Namespace
deriving DecidableEq

/-- the scopes that have been made, in this order, and the handle of each namespace that has one -/
structure ScopeTable where
  handles : List (Namespace × ScopeId)
  scopes : List NamespaceScope
deriving DecidableEq

namespace ScopeTable

def empty : ScopeTable := ⟨[], []⟩

/-- the scope of a namespace, which is made if it is new -/
def resolve (t : ScopeTable) (ns : Namespace) : ScopeId × ScopeTable :=
  match t.handles.lookup ns with
  | some h => (h, t)
  | none =>
    let h : ScopeId := ⟨t.scopes.length⟩
    (h, ⟨t.handles ++ [(ns, h)], t.scopes ++ [⟨ns⟩]⟩)

def scope? (t : ScopeTable) (h : ScopeId) : Option NamespaceScope := t.scopes[h.number]?

def namespaceOf? (t : ScopeTable) (h : ScopeId) : Option Namespace :=
  (t.scope? h).map NamespaceScope.ns

def namespaces (t : ScopeTable) : List Namespace := t.handles.map Prod.fst

def length (t : ScopeTable) : Nat := t.handles.length

def isEmpty (t : ScopeTable) : Bool := t.length == 0

end ScopeTable

end TraceFront
