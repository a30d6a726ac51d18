import TraceFront.Core.Basic
import TraceFront.Datum.Basic
import TraceFront.Expr.Basic

/-!
# The names in a term

A renaming of a term is undone by any other that undoes it on the names of the term, whatever it
does to other names.

* `Pattern.binders`, `Datum.names`, `Expr.names`, `Core.names`   the names in a term;
* `map_map_eq_self`   of each of these types: a renaming that is undone on them is undone;
* `map_congr`         of two of them: renamings that agree on them do the same.
-/

namespace TraceFront

variable {ν μ : Type} {f f' : ν → μ} {g : μ → ν}

theorem Literal.map_map_eq_self {l : Literal ν} (h : ∀ n ∈ l.names, g (f n) = n) :
    (l.map f).map g = l := by
  cases l with
  | str s => exact congrArg Literal.str (h s List.mem_cons_self)
  | keyword k => exact congrArg Literal.keyword (h k List.mem_cons_self)
  | _ => rfl

theorem Literal.map_congr {l : Literal ν} (h : ∀ n ∈ l.names, f n = f' n) :
    l.map f = l.map f' := by
  cases l with
  | str s => exact congrArg Literal.str (h s List.mem_cons_self)
  | keyword k => exact congrArg Literal.keyword (h k List.mem_cons_self)
  | _ => rfl

namespace Pattern

mutual

/-- renamings that agree on the names in a pattern rename it alike -/
theorem map_congr : ∀ p : Pattern ν, (∀ n ∈ p.binders, f n = f' n) → p.map f = p.map f'
  | name n, h => by rw [map, map, h n List.mem_cons_self]
  | wildcard, _ => rfl
  | tuple ps, h => by rw [map, map, mapAll_congr ps h]

theorem mapAll_congr :
    ∀ ps : List (Pattern ν), (∀ n ∈ bindersAll ps, f n = f' n) → mapAll f ps = mapAll f' ps
  | [], _ => rfl
  | p :: ps, h => by
    obtain ⟨hp, hps⟩ := List.forall_mem_append.mp h
    rw [mapAll, mapAll, map_congr p hp, mapAll_congr ps hps]

end

mutual

theorem map_map_eq_self : ∀ p : Pattern ν, (∀ n ∈ p.binders, g (f n) = n) → (p.map f).map g = p
  | name n, h => by rw [map, map, h n List.mem_cons_self]
  | wildcard, _ => rfl
  | tuple ps, h => by rw [map, map, mapAll_mapAll_eq_self ps h]

theorem mapAll_mapAll_eq_self :
    ∀ ps : List (Pattern ν), (∀ n ∈ bindersAll ps, g (f n) = n) → mapAll g (mapAll f ps) = ps
  | [], _ => rfl
  | p :: ps, h => by
    obtain ⟨hp, hps⟩ := List.forall_mem_append.mp h
    rw [mapAll, mapAll, map_map_eq_self p hp, mapAll_mapAll_eq_self ps hps]

end

end Pattern

namespace Datum

mutual

def names : Datum ν → List ν
  | literal l _ => l.names
  | symbol n _ => [n]
  | list ds _ => namesAll ds
  | vector ds _ => namesAll ds

def namesAll : List (Datum ν) → List ν
  | [] => []
  | d :: ds => d.names ++ namesAll ds

end

theorem mem_namesAll {n : ν} {ds : List (Datum ν)} : n ∈ namesAll ds ↔ ∃ d ∈ ds, n ∈ d.names := by
  induction ds with
  | nil => simp [namesAll]
  | cons d ds ih => simp [namesAll, ih]

mutual

theorem map_map_eq_self : ∀ d : Datum ν, (∀ n ∈ d.names, g (f n) = n) → (d.map f).map g = d
  | literal l s, h => by rw [map, map, Literal.map_map_eq_self h]
  | symbol n s, h => by rw [map, map, h n List.mem_cons_self]
  | list ds s, h => by rw [map, map, mapAll_mapAll_eq_self ds h]
  | vector ds s, h => by rw [map, map, mapAll_mapAll_eq_self ds h]

theorem mapAll_mapAll_eq_self :
    ∀ ds : List (Datum ν), (∀ n ∈ namesAll ds, g (f n) = n) → mapAll g (mapAll f ds) = ds
  | [], _ => rfl
  | d :: ds, h => by
    obtain ⟨hd, hds⟩ := List.forall_mem_append.mp h
    rw [mapAll, mapAll, map_map_eq_self d hd, mapAll_mapAll_eq_self ds hds]

end

end Datum

namespace Expr

mutual

def names : Expr ν → List ν
  | program p body _ => p.binders ++ namesAll body
  | ifThen p t _ => p.names ++ t.names
  | ifThenElse p t e _ => p.names ++ t.names ++ e.names
  | block stmts _ => namesAll stmts
  | define p v _ => p.binders ++ v.names
  | withAddress t e _ => t.names ++ e.names
  | tuple es _ => namesAll es
  | apply f args _ => f.names ++ namesAll args
  | literal l _ => l.names
  | var n _ => [n]
  | this _ => []
  | splice e _ => e.names
  | unquote e _ => e.names

def namesAll : List (Expr ν) → List ν
  | [] => []
  | e :: es => e.names ++ namesAll es

end

theorem mem_namesAll {n : ν} {es : List (Expr ν)} : n ∈ namesAll es ↔ ∃ e ∈ es, n ∈ e.names := by
  induction es with
  | nil => simp [namesAll]
  | cons e es ih => simp [namesAll, ih]

mutual

/-- renamings that agree on the names in an expression rename it alike -/
theorem map_congr : ∀ e : Expr ν, (∀ n ∈ e.names, f n = f' n) → e.map f = e.map f'
  | program p body s, h => by
    obtain ⟨hp, hbody⟩ := List.forall_mem_append.mp h
    rw [map, map, p.map_congr hp, mapAll_congr body hbody]
  | ifThen p t s, h => by
    obtain ⟨hp, ht⟩ := List.forall_mem_append.mp h
    rw [map, map, map_congr p hp, map_congr t ht]
  | ifThenElse p t e s, h => by
    obtain ⟨hpt, he⟩ := List.forall_mem_append.mp h
    obtain ⟨hp, ht⟩ := List.forall_mem_append.mp hpt
    rw [map, map, map_congr p hp, map_congr t ht, map_congr e he]
  | block stmts s, h => by rw [map, map, mapAll_congr stmts h]
  | define p v s, h => by
    obtain ⟨hp, hv⟩ := List.forall_mem_append.mp h
    rw [map, map, p.map_congr hp, map_congr v hv]
  | withAddress t e s, h => by
    obtain ⟨ht, he⟩ := List.forall_mem_append.mp h
    rw [map, map, map_congr t ht, map_congr e he]
  | tuple es s, h => by rw [map, map, mapAll_congr es h]
  | apply e args s, h => by
    obtain ⟨he, hargs⟩ := List.forall_mem_append.mp h
    rw [map, map, map_congr e he, mapAll_congr args hargs]
  | literal l s, h => by rw [map, map, Literal.map_congr h]
  | var n s, h => by rw [map, map, h n List.mem_cons_self]
  | this _, _ => rfl
  | splice e s, h => by rw [map, map, map_congr e h]
  | unquote e s, h => by rw [map, map, map_congr e h]

theorem mapAll_congr :
    ∀ es : List (Expr ν), (∀ n ∈ namesAll es, f n = f' n) → mapAll f es = mapAll f' es
  | [], _ => rfl
  | e :: es, h => by
    obtain ⟨he, hes⟩ := List.forall_mem_append.mp h
    rw [mapAll, mapAll, map_congr e he, mapAll_congr es hes]

end

mutual

theorem map_map_eq_self : ∀ e : Expr ν, (∀ n ∈ e.names, g (f n) = n) → (e.map f).map g = e
  | program p body s, h => by
    obtain ⟨hp, hbody⟩ := List.forall_mem_append.mp h
    rw [map, map, Pattern.map_map_eq_self p hp, mapAll_mapAll_eq_self body hbody]
  | ifThen p t s, h => by
    obtain ⟨hp, ht⟩ := List.forall_mem_append.mp h
    rw [map, map, map_map_eq_self p hp, map_map_eq_self t ht]
  | ifThenElse p t e s, h => by
    obtain ⟨hpt, he⟩ := List.forall_mem_append.mp h
    obtain ⟨hp, ht⟩ := List.forall_mem_append.mp hpt
    rw [map, map, map_map_eq_self p hp, map_map_eq_self t ht, map_map_eq_self e he]
  | block stmts s, h => by rw [map, map, mapAll_mapAll_eq_self stmts h]
  | define p v s, h => by
    obtain ⟨hp, hv⟩ := List.forall_mem_append.mp h
    rw [map, map, Pattern.map_map_eq_self p hp, map_map_eq_self v hv]
  | withAddress t e s, h => by
    obtain ⟨ht, he⟩ := List.forall_mem_append.mp h
    rw [map, map, map_map_eq_self t ht, map_map_eq_self e he]
  | tuple es s, h => by rw [map, map, mapAll_mapAll_eq_self es h]
  | apply e args s, h => by
    obtain ⟨he, hargs⟩ := List.forall_mem_append.mp h
    rw [map, map, map_map_eq_self e he, mapAll_mapAll_eq_self args hargs]
  | literal l s, h => by rw [map, map, Literal.map_map_eq_self h]
  | var n s, h => by rw [map, map, h n List.mem_cons_self]
  | this _, _ => rfl
  | splice e s, h => by rw [map, map, map_map_eq_self e h]
  | unquote e s, h => by rw [map, map, map_map_eq_self e h]

theorem mapAll_mapAll_eq_self :
    ∀ es : List (Expr ν), (∀ n ∈ namesAll es, g (f n) = n) → mapAll g (mapAll f es) = es
  | [], _ => rfl
  | e :: es, h => by
    obtain ⟨he, hes⟩ := List.forall_mem_append.mp h
    rw [mapAll, mapAll, map_map_eq_self e he, mapAll_mapAll_eq_self es hes]

end

end Expr

namespace Core

mutual

theorem map_map_eq_self : ∀ c : Core ν, (∀ n ∈ c.names, g (f n) = n) → (c.map f).map g = c
  | nil, _ => rfl
  | literal l, h => by rw [map, map, Literal.map_map_eq_self h]
  | var n, h => by rw [map, map, h n List.mem_cons_self]
  | this, _ => rfl
  | lambda p b, h => by
    obtain ⟨hp, hb⟩ := List.forall_mem_cons.mp h
    rw [map, map, hp, map_map_eq_self b hb]
  | conditional p t e, h => by
    obtain ⟨hpt, he⟩ := List.forall_mem_append.mp h
    obtain ⟨hp, ht⟩ := List.forall_mem_append.mp hpt
    rw [map, map, map_map_eq_self p hp, map_map_eq_self t ht, map_map_eq_self e he]
  | bind n v b, h => by
    obtain ⟨hn, hvb⟩ := List.forall_mem_cons.mp h
    obtain ⟨hv, hb⟩ := List.forall_mem_append.mp hvb
    rw [map, map, hn, map_map_eq_self v hv, map_map_eq_self b hb]
  | bindGroup bs b, h => by
    obtain ⟨hbs, hb⟩ := List.forall_mem_append.mp h
    rw [map, map, mapBindings_mapBindings_eq_self bs hbs, map_map_eq_self b hb]
  | sequence cs, h => by rw [map, map, mapAll_mapAll_eq_self cs h]
  | apply c cs, h => by
    obtain ⟨hc, hcs⟩ := List.forall_mem_append.mp h
    rw [map, map, map_map_eq_self c hc, mapAll_mapAll_eq_self cs hcs]
  | tuple cs, h => by rw [map, map, mapAll_mapAll_eq_self cs h]
  | project c i, h => by rw [map, map, map_map_eq_self c h]
  | withAddress t c, h => by
    obtain ⟨ht, hc⟩ := List.forall_mem_append.mp h
    rw [map, map, map_map_eq_self t ht, map_map_eq_self c hc]
  | splice c, h => by rw [map, map, map_map_eq_self c h]
  | unquote c, h => by rw [map, map, map_map_eq_self c h]

theorem mapAll_mapAll_eq_self :
    ∀ cs : List (Core ν), (∀ n ∈ namesAll cs, g (f n) = n) → mapAll g (mapAll f cs) = cs
  | [], _ => rfl
  | c :: cs, h => by
    obtain ⟨hc, hcs⟩ := List.forall_mem_append.mp h
    rw [mapAll, mapAll, map_map_eq_self c hc, mapAll_mapAll_eq_self cs hcs]

theorem mapBindings_mapBindings_eq_self :
    ∀ bs : List (ν × Core ν), (∀ n ∈ namesBindings bs, g (f n) = n) →
      mapBindings g (mapBindings f bs) = bs
  | [], _ => rfl
  | (n, c) :: bs, h => by
    obtain ⟨hn, hcbs⟩ := List.forall_mem_cons.mp h
    obtain ⟨hc, hbs⟩ := List.forall_mem_append.mp hcbs
    rw [mapBindings, mapBindings, hn, map_map_eq_self c hc, mapBindings_mapBindings_eq_self bs hbs]

end

end Core

end TraceFront
