import TraceFront.Named.OfExpr
import TraceFront.Named.Reader
import TraceFront.Proofs.Named.Names
import TraceFront.Proofs.Session.Interning

/-!
# Steps on handles

A step on handles transcribes a step on texts: it gives the same with handles for the texts.  Which
handles these are depends on the interner that the step starts with.  Any later interner has the same
handles, and so steps are composed under one that is later than all of them.  The texts that are taken
in on the way do not depend on the interner.

* `Interning.Transcribes`    a step that may fail, and `Desugaring.Transcribes` one that may warn;
* `Transcribes.bind`         one step after the other;
* `Transcribes.weaken`       more texts known before, and fewer asked for after.
-/

namespace TraceFront

theorem Interner.knows_of_subset {t : Interner} {known texts names : List String}
    (h : names ⊆ known ++ texts) (ht : ∀ n ∈ known, t.Knows n) :
    ∀ n ∈ names, (t.internAll texts).Knows n := by
  intro n hn
  rcases List.mem_append.mp (h hn) with hn | hn
  · exact (ht n hn).mono (t.extends_internAll texts)
  · exact knows_internAll hn

/-- what is known after two steps is known before them or taken in by one of them -/
theorem subset_of_subsets {known texts texts' names names' : List String}
    (h : names ⊆ known ++ texts) (h' : names' ⊆ (known ++ names) ++ texts') :
    names' ⊆ known ++ (texts ++ texts') := by
  grind

namespace Interning

variable {ε α β : Type} {known names names' : List String} {x : (String → Name) → Interning ε α}
  {r : (String → Name) → Except ε α}

/-- Given the handles of `known` texts, the step takes in the same texts whatever else is there.  It
gives `r` with the handles that texts have from then on, and the texts `names` have one. -/
def Transcribes (known : List String) (x : (String → Name) → Interning ε α)
    (r : (String → Name) → Except ε α) (names : List String) : Prop :=
  ∃ texts, names ⊆ known ++ texts ∧
    ∀ t later : Interner, (∀ n ∈ known, t.Knows n) → (t.internAll texts).Extends later →
      (x later.nameOf).run.run t = (r later.nameOf, t.internAll texts)

theorem run_bind (x : Interning ε α) (k : α → Interning ε β) (t : Interner) :
    (x >>= k).run.run t =
      match x.run.run t with
      | (.ok a, t') => (k a).run.run t'
      | (.error e, t') => (.error e, t') := by
  rw [ExceptT.run_bind, StateT.run_bind]
  rcases x.run.run t with ⟨_ | a, t'⟩
  · rfl
  · rfl

theorem run_ofExcept (y : Except ε α) (t : Interner) :
    (ofExcept y : Interning ε α).run.run t = (y, t) := by
  cases y <;> rfl

theorem transcribes_outcome (r : (String → Name) → Except ε α) (h : names ⊆ known) :
    Transcribes known (fun ρ => ofExcept (r ρ)) r names :=
  ⟨[], by simpa using h, fun t _ _ _ => run_ofExcept _ t⟩

theorem transcribes_pure (a : (String → Name) → α) (h : names ⊆ known) :
    Transcribes known (fun ρ => (pure (a ρ) : Interning ε α)) (fun ρ => .ok (a ρ)) names :=
  ⟨[], by simpa using h, fun _ _ _ _ => rfl⟩

theorem transcribes_throw (e : ε) :
    Transcribes known (fun _ => (throw e : Interning ε α)) (fun _ => .error e) [] :=
  ⟨[], List.nil_subset _, fun _ _ _ _ => rfl⟩

theorem transcribes_intern (s : String) :
    Transcribes known (fun _ => (intern s : Interning ε Name)) (fun ρ => .ok (ρ s)) [s] := by
  refine ⟨[s], List.subset_append_right _ _, ?_⟩
  intro t later _ hlater
  show (Except.ok (t.intern s).1, (t.intern s).2) = _
  rw [Interner.intern_eq hlater]
  rfl

/-- a step that looks into the interner, at texts that are known -/
theorem transcribes_get (f : (String → Name) → Interner → Except ε α)
    (hf : ∀ t later : Interner, (∀ n ∈ known, t.Knows n) → t.Extends later →
      f later.nameOf t = r later.nameOf) (h : names ⊆ known) :
    Transcribes known (fun ρ => get >>= fun t => ofExcept (f ρ t)) r names := by
  refine ⟨[], by simpa using h, ?_⟩
  intro t later ht hlater
  rw [run_bind]
  show (ofExcept (f later.nameOf t) : Interning ε α).run.run t = _
  rw [run_ofExcept, hf t later ht hlater]
  rfl

theorem Transcribes.weaken {known' : List String} (h : Transcribes known x r names)
    (hknown : known ⊆ known') (hnames : names' ⊆ known' ++ names) :
    Transcribes known' x r names' := by
  obtain ⟨texts, hsubset, hx⟩ := h
  refine ⟨texts, by grind, ?_⟩
  intro t later ht
  exact hx t later fun n hn => ht n (hknown hn)

theorem Transcribes.bind {a : (String → Name) → α} {k : (String → Name) → α → Interning ε β}
    {r : (String → Name) → Except ε β} (hx : Transcribes known x (fun ρ => .ok (a ρ)) names)
    (hk : Transcribes (known ++ names) (fun ρ => k ρ (a ρ)) r names') :
    Transcribes known (fun ρ => x ρ >>= k ρ) r names' := by
  obtain ⟨texts, hnames, hx⟩ := hx
  obtain ⟨texts', hnames', hk⟩ := hk
  refine ⟨texts ++ texts', subset_of_subsets hnames hnames', ?_⟩
  intro t later ht hlater
  rw [Interner.internAll_append] at hlater ⊢
  have hfirst := hx t later ht (.trans (Interner.extends_internAll _ _) hlater)
  rw [run_bind, hfirst]
  refine hk _ later ?_ hlater
  have hafter : known ++ names ⊆ known ++ texts := by grind
  exact Interner.knows_of_subset hafter ht

theorem Transcribes.bind_error {e : ε} {k : (String → Name) → α → Interning ε β}
    (hx : Transcribes known x (fun _ => .error e) names) :
    Transcribes known (fun ρ => x ρ >>= k ρ) (fun _ => .error e) [] := by
  obtain ⟨texts, _, hx⟩ := hx
  refine ⟨texts, List.nil_subset _, ?_⟩
  intro t later ht hlater
  rw [run_bind, hx t later ht hlater]

end Interning

namespace Desugaring

variable {α β : Type} {known names names' : List String} {x : (String → Name) → Desugaring α}
  {a : (String → Name) → α} {ds ds' : List TrailingDefinition}

/-- as for a step that may fail, with the definitions that it warns about -/
def Transcribes (known : List String) (x : (String → Name) → Desugaring α)
    (a : (String → Name) → α) (ds : List TrailingDefinition) (names : List String) : Prop :=
  ∃ texts, names ⊆ known ++ texts ∧
    ∀ (t later : Interner) (before : List Diagnostic), (∀ n ∈ known, t.Knows n) →
      (t.internAll texts).Extends later →
        (x later.nameOf).run ⟨t, before⟩ = (a later.nameOf,
          ⟨t.internAll texts, before ++ ds.map TrailingDefinition.diagnostic⟩)

theorem transcribes_pure (a : (String → Name) → α) (h : names ⊆ known) :
    Transcribes known (fun ρ => pure (a ρ)) a [] names := by
  refine ⟨[], by simpa using h, ?_⟩
  intro t later before _ _
  rw [List.map_nil, List.append_nil]
  rfl

theorem transcribes_intern (s : String) :
    Transcribes known (fun _ => intern s) (fun ρ => ρ s) [] [s] := by
  refine ⟨[s], List.subset_append_right _ _, ?_⟩
  intro t later before _ hlater
  show ((t.intern s).1, Desugarer.mk (t.intern s).2 before) = _
  rw [Interner.intern_eq hlater, List.map_nil, List.append_nil]
  rfl

/-- a step may look up handles of known texts first -/
theorem Transcribes.get_bind {k : (String → Name) → Interner → Desugaring α}
    (hx : Transcribes known x a ds names)
    (hk : ∀ t later : Interner, (∀ n ∈ known, t.Knows n) → t.Extends later →
      k later.nameOf t = x later.nameOf) :
    Transcribes known (fun ρ => get >>= fun d => k ρ d.interner) a ds names := by
  obtain ⟨texts, hnames, hx⟩ := hx
  refine ⟨texts, hnames, ?_⟩
  intro t later before ht hlater
  show (k later.nameOf t).run ⟨t, before⟩ = _
  rw [hk t later ht ((t.extends_internAll texts).trans hlater)]
  exact hx t later before ht hlater

theorem transcribes_textOf {s : String} (h : s ∈ known) :
    Transcribes known (fun ρ => textOf (ρ s)) (fun _ => s) [] [] := by
  refine ⟨[], List.nil_subset _, ?_⟩
  intro t later before ht hlater
  show (t.textOf (later.nameOf s), Desugarer.mk t before) = _
  rw [Interner.textOf_later (ht s h) hlater, List.map_nil, List.append_nil]
  rfl

theorem transcribes_warn (d : TrailingDefinition) :
    Transcribes known (fun _ => warn d.diagnostic) (fun _ => ()) [d] [] :=
  ⟨[], List.nil_subset _, fun _ _ _ _ _ => rfl⟩

theorem Transcribes.bind {k : (String → Name) → α → Desugaring β} {b : (String → Name) → β}
    (hx : Transcribes known x a ds names)
    (hk : Transcribes (known ++ names) (fun ρ => k ρ (a ρ)) b ds' names') :
    Transcribes known (fun ρ => x ρ >>= k ρ) b (ds ++ ds') names' := by
  obtain ⟨texts, hnames, hx⟩ := hx
  obtain ⟨texts', hnames', hk⟩ := hk
  refine ⟨texts ++ texts', subset_of_subsets hnames hnames', ?_⟩
  intro t later before ht hlater
  rw [Interner.internAll_append] at hlater ⊢
  have hfirst := hx t later before ht (.trans (Interner.extends_internAll _ _) hlater)
  rw [StateT.run_bind, hfirst, List.map_append, ← List.append_assoc]
  refine hk _ later _ ?_ hlater
  have hafter : known ++ names ⊆ known ++ texts := by grind
  exact Interner.knows_of_subset hafter ht

/-- a step whose outcome is put into a larger term -/
theorem Transcribes.map {f : (String → Name) → α → β} (hx : Transcribes known x a ds names)
    (h : names' ⊆ known ++ names) :
    Transcribes known (fun ρ => x ρ >>= fun v => pure (f ρ v)) (fun ρ => f ρ (a ρ)) ds names' := by
  have hbind := hx.bind (k := fun ρ v => pure (f ρ v)) (transcribes_pure (fun ρ => f ρ (a ρ)) h)
  rwa [List.append_nil] at hbind

end Desugaring

end TraceFront
