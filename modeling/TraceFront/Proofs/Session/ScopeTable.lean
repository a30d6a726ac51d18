import TraceFront.Scope

/-!
# The table of scopes

A scope is found by the name of its namespace and holds a name of its own.  That the two are the same
is true of the empty table, and of every table that requests make of it.

* `ScopeTable.Extends`           handles and scopes are only added;
* `ScopeTable.Valid`             a namespace has one handle, and the scope behind it holds that
                                 namespace;
* `Valid.resolve`                one request keeps it, and `Valid.resolveAll` any number of them;
* `resolve_later`                a namespace keeps its handle;
* `Valid.scope?_of_mem`          and its scope holds the namespace;
* `mem_namespaces_resolveAll`    the namespaces that have a scope after requests.
-/

namespace TraceFront

namespace ScopeTable

/-- every handle and every scope of the first table is in the second one, at the same place -/
structure Extends (t t' : ScopeTable) : Prop where
  handles : t.handles <+: t'.handles
  scopes : t.scopes <+: t'.scopes

theorem Extends.refl (t : ScopeTable) : t.Extends t := ⟨List.prefix_refl _, List.prefix_refl _⟩

theorem Extends.trans {t t' t'' : ScopeTable} (h : t.Extends t') (h' : t'.Extends t'') :
    t.Extends t'' := ⟨h.handles.trans h'.handles, h.scopes.trans h'.scopes⟩

/-- a namespace has one handle, and the scope behind it holds that namespace -/
structure Valid (t : ScopeTable) : Prop where
  nodup : t.namespaces.Nodup
  holds : ∀ ns h, (ns, h) ∈ t.handles → t.scope? h = some ⟨ns⟩

theorem valid_empty : empty.Valid := ⟨List.nodup_nil, fun _ _ h => absurd h List.not_mem_nil⟩

theorem mem_namespaces_of_mem {t : ScopeTable} {ns : Namespace} {h : ScopeId}
    (hm : (ns, h) ∈ t.handles) : ns ∈ t.namespaces := List.mem_map_of_mem hm

theorem mem_of_lookup {t : ScopeTable} {ns : Namespace} {h : ScopeId}
    (hl : t.handles.lookup ns = some h) : (ns, h) ∈ t.handles := by
  obtain ⟨earlier, later, hsplit, _⟩ := List.lookup_eq_some_iff.mp hl
  rw [hsplit]
  exact List.mem_append_right _ List.mem_cons_self

theorem lookup_of_mem {t : ScopeTable} {ns : Namespace} (hm : ns ∈ t.namespaces) :
    ∃ h, t.handles.lookup ns = some h := by
  obtain ⟨e, he, rfl⟩ := List.mem_map.mp hm
  exact Option.isSome_iff_exists.mp (List.lookup_isSome_iff.mpr ⟨e, he, beq_self_eq_true _⟩)

theorem scope?_of_extends {t t' : ScopeTable} (he : t.Extends t') {h : ScopeId}
    {scope : NamespaceScope} (hs : t.scope? h = some scope) : t'.scope? h = some scope := by
  obtain ⟨later, hlater⟩ := he.scopes
  obtain ⟨hnumber, _⟩ := List.getElem?_eq_some_iff.mp hs
  rw [scope?, ← hlater, List.getElem?_append_left hnumber]
  exact hs

/-- a namespace has one scope, which is no other namespace's -/
theorem Valid.scope_eq_iff {t : ScopeTable} (ht : t.Valid) {ns ns' : Namespace} {h h' : ScopeId}
    (hm : t.handles.lookup ns = some h) (hm' : t.handles.lookup ns' = some h') :
    h = h' ↔ ns = ns' := by
  constructor
  · rintro rfl
    have hheld := ht.holds ns h (mem_of_lookup hm)
    rw [ht.holds ns' h (mem_of_lookup hm')] at hheld
    cases hheld
    rfl
  · rintro rfl
    rw [hm] at hm'
    exact Option.some.inj hm'

/-! ## one request -/

/-- the namespace has a scope already, or a new one is made for it -/
theorem resolve_cases (t : ScopeTable) (ns : Namespace) :
    (∃ h, t.handles.lookup ns = some h ∧ t.resolve ns = (h, t)) ∨
    (ns ∉ t.namespaces ∧ t.resolve ns = (⟨t.scopes.length⟩,
      ⟨t.handles ++ [(ns, ⟨t.scopes.length⟩)], t.scopes ++ [⟨ns⟩]⟩)) := by
  unfold resolve
  cases hl : t.handles.lookup ns with
  | some h => exact .inl ⟨h, rfl, rfl⟩
  | none =>
    refine .inr ⟨?_, rfl⟩
    intro hm
    obtain ⟨h, hh⟩ := lookup_of_mem hm
    rw [hl] at hh
    cases hh

theorem extends_resolve (t : ScopeTable) (ns : Namespace) : t.Extends (t.resolve ns).2 := by
  rcases t.resolve_cases ns with ⟨h, _, hr⟩ | ⟨_, hr⟩
  · rw [hr]
    exact .refl t
  · rw [hr]
    exact ⟨List.prefix_append _ _, List.prefix_append _ _⟩

theorem lookup_resolve (t : ScopeTable) (ns : Namespace) :
    (t.resolve ns).2.handles.lookup ns = some (t.resolve ns).1 := by
  unfold resolve
  cases hl : t.handles.lookup ns with
  | some h => exact hl
  | none => simp [List.lookup_append, hl]

theorem mem_namespaces_resolve {t : ScopeTable} {ns m : Namespace} :
    m ∈ (t.resolve ns).2.namespaces ↔ m ∈ t.namespaces ∨ m = ns := by
  rcases t.resolve_cases ns with ⟨h, hl, hr⟩ | ⟨_, hr⟩
  · have hns : ns ∈ t.namespaces := mem_namespaces_of_mem (mem_of_lookup hl)
    rw [hr]
    exact ⟨.inl, fun hm => hm.elim id fun heq => heq ▸ hns⟩
  · rw [hr]
    simp [namespaces]

/-- a new scope is made with the namespace that is asked for, and under its name -/
theorem Valid.resolve {t : ScopeTable} (ht : t.Valid) (ns : Namespace) :
    (t.resolve ns).2.Valid := by
  have hext := t.extends_resolve ns
  rcases t.resolve_cases ns with ⟨h, _, hr⟩ | ⟨hnew, hr⟩
  · rw [hr]
    exact ht
  rw [hr] at hext ⊢
  constructor
  · show ((t.handles ++ [(ns, _)]).map Prod.fst).Nodup
    rw [List.map_append]
    refine List.nodup_append.mpr ⟨ht.nodup, by simp, ?_⟩
    rintro m hm n hn rfl
    obtain rfl := List.mem_singleton.mp hn
    exact hnew hm
  · intro m h hm
    rcases List.mem_append.mp hm with hm | hm
    · exact scope?_of_extends hext (ht.holds m h hm)
    · cases List.mem_singleton.mp hm
      exact List.getElem?_concat_length

/-! ## later requests -/

theorem lookup_of_extends {t t' : ScopeTable} (he : t.Extends t') {ns : Namespace} {h : ScopeId}
    (hl : t.handles.lookup ns = some h) : t'.handles.lookup ns = some h := by
  obtain ⟨later, hlater⟩ := he.handles
  rw [← hlater, List.lookup_append, hl, Option.some_or]

/-- a namespace keeps its handle -/
theorem resolve_later {t t' : ScopeTable} {ns : Namespace} (h : (t.resolve ns).2.Extends t') :
    t'.resolve ns = ((t.resolve ns).1, t') := by
  rw [resolve, lookup_of_extends h (t.lookup_resolve ns)]

/-- and the scope of a namespace that has one holds it -/
theorem Valid.scope?_of_mem {t : ScopeTable} (ht : t.Valid) {ns : Namespace}
    (hm : ns ∈ t.namespaces) : t.scope? (t.resolve ns).1 = some ⟨ns⟩ := by
  obtain ⟨h, hl⟩ := lookup_of_mem hm
  rw [ScopeTable.resolve, hl]
  exact ht.holds ns h (mem_of_lookup hl)

/-! ## any number of requests -/

/-- requests one after the other -/
def resolveAll (t : ScopeTable) (nss : List Namespace) : ScopeTable :=
  nss.foldl (fun t ns => (t.resolve ns).2) t

theorem resolveAll_cons (t : ScopeTable) (ns : Namespace) (nss : List Namespace) :
    t.resolveAll (ns :: nss) = (t.resolve ns).2.resolveAll nss := rfl

theorem resolveAll_append (t : ScopeTable) (nss nss' : List Namespace) :
    t.resolveAll (nss ++ nss') = (t.resolveAll nss).resolveAll nss' := List.foldl_append

theorem extends_resolveAll (t : ScopeTable) (nss : List Namespace) :
    t.Extends (t.resolveAll nss) := by
  induction nss generalizing t with
  | nil => exact .refl t
  | cons ns nss ih => exact (t.extends_resolve ns).trans (ih _)

theorem Valid.resolveAll {t : ScopeTable} (ht : t.Valid) (nss : List Namespace) :
    (t.resolveAll nss).Valid := by
  induction nss generalizing t with
  | nil => exact ht
  | cons ns nss ih => exact ih (ht.resolve ns)

theorem mem_namespaces_resolveAll {t : ScopeTable} {nss : List Namespace} {m : Namespace} :
    m ∈ (t.resolveAll nss).namespaces ↔ m ∈ t.namespaces ∨ m ∈ nss := by
  induction nss generalizing t with
  | nil => simp [resolveAll]
  | cons ns nss ih => rw [resolveAll_cons, ih, mem_namespaces_resolve, List.mem_cons, or_assoc]

/-- requests for namespaces that have scopes already change nothing -/
theorem resolveAll_again {t t' : ScopeTable} {nss : List Namespace}
    (h : (t.resolveAll nss).Extends t') : t'.resolveAll nss = t' := by
  induction nss generalizing t with
  | nil => rfl
  | cons ns nss ih =>
    have hfirst : (t.resolve ns).2.Extends t' := (extends_resolveAll _ nss).trans h
    rw [resolveAll_cons, resolve_later hfirst]
    exact ih h

end ScopeTable

end TraceFront
