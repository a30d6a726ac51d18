import TraceFront.Proofs.Datum.Reading
import TraceFront.Proofs.Expr.Recognition
import TraceFront.Proofs.Expr.Subterms

/-!
# The places of terms

Recognition looks at the shape of a datum and at the names in it.  Its place is only passed on: to the
expression, or to the error.

* `Datum.relocate`, `Expr.relocate`   every place replaced by another one;
* `Expr.ofDatum_relocate`             places can be replaced before recognition or after it;
* `Datum.unplaced`, `Expr.unplaced`   the terms without their places.
-/

namespace TraceFront

namespace Datum

mutual

/-- the datum with its places replaced -/
def relocate (σ : Span → Span) : Datum String → Datum String
  | literal l s => literal l (σ s)
  | symbol n s => symbol n (σ s)
  | list ds s => list (relocateAll σ ds) (σ s)
  | vector ds s => vector (relocateAll σ ds) (σ s)

def relocateAll (σ : Span → Span) : List (Datum String) → List (Datum String)
  | [] => []
  | d :: ds => d.relocate σ :: relocateAll σ ds

end

theorem relocateAll_eq_map (σ : Span → Span) (ds : List (Datum String)) :
    relocateAll σ ds = ds.map (relocate σ) := by
  induction ds with
  | nil => rfl
  | cons d ds ih => rw [relocateAll, ih, List.map_cons]

theorem span_relocate (σ : Span → Span) (d : Datum String) : (d.relocate σ).span = σ d.span := by
  cases d <;> rfl

theorem form?_relocate (σ : Span → Span) (d : Datum String) : (d.relocate σ).form? = d.form? := by
  cases d <;> rfl

/-- the text of a datum does not tell where it stands -/
theorem render_relocate (σ : Span → Span) (d : Datum String) :
    (d.relocate σ).render = d.render := by
  induction d using childInduction with
  | step d ih =>
    have all : ∀ ds, (∀ c ∈ ds, c ∈ d.items) → renderAll (relocateAll σ ds) = renderAll ds := by
      intro ds hds
      rw [renderAll_eq_map, renderAll_eq_map, relocateAll_eq_map, List.map_map]
      exact List.map_congr_left fun c hc => ih c (hds c hc)
    cases d with
    | literal l s => rfl
    | symbol n s => rfl
    | list ds s => rw [relocate, render, render, all ds fun c hc => hc]
    | vector ds s => rw [relocate, render, render, all ds fun c hc => hc]

end Datum

/-- the error at another place -/
def FormError.relocate (σ : Span → Span) : FormError → FormError
  | malformedExpression t f s => malformedExpression t f (σ s)
  | operandCount f n t s => operandCount f n t (σ s)
  | malformedPattern t s => malformedPattern t (σ s)
  | reservedWord n s => reservedWord n (σ s)
  | reservedSeparator n s => reservedSeparator n (σ s)
  | wildcardValue s => wildcardValue (σ s)

/-- the outcome with its value, or the place of its error, replaced -/
def relocated {α β : Type} (σ : Span → Span) (g : α → β) : Except FormError α → Except FormError β
  | .ok a => .ok (g a)
  | .error e => .error (e.relocate σ)

section
variable {α β : Type} {σ : Span → Span}

theorem relocated_bind {γ δ : Type} {g : α → β} {h : γ → δ} {x : Except FormError α}
    {f : α → Except FormError γ} {f' : β → Except FormError δ}
    (hf : ∀ a, f' (g a) = relocated σ h (f a)) :
    (relocated σ g x >>= f') = relocated σ h (x >>= f) := by
  cases x with
  | ok a => exact hf a
  | error e => rfl

theorem relocated_map {γ δ : Type} {g : α → β} {h : γ → δ} {f : α → γ} {f' : β → δ}
    (hf : ∀ a, f' (g a) = h (f a)) (x : Except FormError α) :
    (relocated σ g x).map f' = relocated σ h (x.map f) := by
  cases x with
  | ok a => exact congrArg Except.ok (hf a)
  | error e => rfl

end

/-! ## names and patterns -/

theorem reference_relocate (σ : Span → Span) (n : String) (s : Span) :
    reference n (σ s) = relocated σ id (reference n s) := by
  unfold reference
  split
  · rfl
  split
  · rfl
  split
  · rfl
  · rfl

theorem newName_relocate (σ : Span → Span) (n : String) (s : Span) :
    newName n (σ s) = relocated σ id (newName n s) := by
  unfold newName
  split
  · rfl
  · exact reference_relocate σ n s

theorem Datum.notPattern_relocate (σ : Span → Span) (d : Datum String) :
    (d.relocate σ).notPattern = d.notPattern.relocate σ := by
  rw [notPattern, spell_text, render_relocate, span_relocate]
  rfl

theorem Datum.wrongCount_relocate (σ : Span → Span) (d : Datum String) (form : SpecialForm)
    (found : Nat) :
    (d.relocate σ).wrongCount form found = (d.wrongCount form found).relocate σ := by
  rw [wrongCount, spell_text, render_relocate, span_relocate]
  rfl

theorem Pattern.ofDatum_relocate (σ : Span → Span) (d : Datum String) :
    Pattern.ofDatum (d.relocate σ) = relocated σ id (Pattern.ofDatum d) := by
  induction d using Datum.childInduction with
  | step d ih =>
    have all : ∀ ds, (∀ c ∈ ds, c ∈ d.items) →
        Pattern.ofDatums (Datum.relocateAll σ ds) = relocated σ id (Pattern.ofDatums ds) := by
      intro ds hds
      induction ds with
      | nil => rfl
      | cons c cs ihs =>
        obtain ⟨hc, hcs⟩ := List.forall_mem_cons.mp hds
        rw [Datum.relocateAll, Pattern.ofDatums, Pattern.ofDatums, ih c hc, ihs hcs]
        exact relocated_bind fun p => relocated_bind fun ps => rfl
    cases d with
    | literal l s => rfl
    | symbol n s =>
      rw [Datum.relocate, Pattern.ofDatum, Pattern.ofDatum]
      split
      · rfl
      · rw [newName_relocate]
        exact relocated_map (by intro _; rfl) _
    | vector ds s =>
      rw [Datum.relocate, Pattern.ofDatum, Pattern.ofDatum, all ds fun c hc => hc]
      exact relocated_map (by intro _; rfl) _
    | list ds s =>
      cases ds with
      | nil => rfl
      | cons c cs =>
        have hnot := (Datum.list (c :: cs) s).notPattern_relocate σ
        rw [Datum.relocate, Datum.relocateAll] at hnot ⊢
        rw [Pattern.ofDatum, Pattern.ofDatum, Datum.form?_relocate, hnot]
        split
        · rw [all cs fun c hc => List.mem_cons_of_mem _ hc]
          exact relocated_map (by intro _; rfl) _
        · rfl

/-! ## expressions -/

namespace Expr

mutual

/-- the expression with its places replaced -/
def relocate (σ : Span → Span) : Expr String → Expr String
  | program p body s => program p (relocateAll σ body) (σ s)
  | ifThen p t s => ifThen (p.relocate σ) (t.relocate σ) (σ s)
  | ifThenElse p t e s => ifThenElse (p.relocate σ) (t.relocate σ) (e.relocate σ) (σ s)
  | block stmts s => block (relocateAll σ stmts) (σ s)
  | define p v s => define p (v.relocate σ) (σ s)
  | withAddress t e s => withAddress (t.relocate σ) (e.relocate σ) (σ s)
  | tuple es s => tuple (relocateAll σ es) (σ s)
  | apply f args s => apply (f.relocate σ) (relocateAll σ args) (σ s)
  | literal l s => literal l (σ s)
  | var n s => var n (σ s)
  | this s => this (σ s)
  | splice e s => splice (e.relocate σ) (σ s)
  | unquote e s => unquote (e.relocate σ) (σ s)

def relocateAll (σ : Span → Span) : List (Expr String) → List (Expr String)
  | [] => []
  | e :: es => e.relocate σ :: relocateAll σ es

end

theorem ofDatums_relocate {σ : Span → Span} {ds : List (Datum String)}
    (h : ∀ d ∈ ds, ofDatum (d.relocate σ) = relocated σ (relocate σ) (ofDatum d)) :
    ofDatums (Datum.relocateAll σ ds) = relocated σ (relocateAll σ) (ofDatums ds) := by
  induction ds with
  | nil => rfl
  | cons d ds ih =>
    obtain ⟨hd, hds⟩ := List.forall_mem_cons.mp h
    rw [Datum.relocateAll, ofDatums, ofDatums, hd, ih hds]
    exact relocated_bind fun e => relocated_bind fun es => rfl

/-- a list keeps its form, and its operands are recognized at their new places -/
theorem ofDatum_list_relocate {σ : Span → Span} {head : Datum String} {ds : List (Datum String)}
    {s : Span}
    (h : ∀ d ∈ head :: ds, ofDatum (d.relocate σ) = relocated σ (relocate σ) (ofDatum d)) :
    ofDatum ((Datum.list (head :: ds) s).relocate σ) =
      relocated σ (relocate σ) (ofDatum (.list (head :: ds) s)) := by
  have hcount := (Datum.list (head :: ds) s).wrongCount_relocate σ
  obtain ⟨hhead, hds⟩ := List.forall_mem_cons.mp h
  rw [Datum.relocate, Datum.relocateAll] at hcount ⊢
  have hlength : (Datum.relocateAll σ ds).length = ds.length := by
    rw [Datum.relocateAll_eq_map, List.length_map]
  unfold ofDatum
  simp only [Datum.form?_relocate, hcount, hlength]
  cases head.form? with
  | none =>
    simp only
    rw [hhead, ofDatums_relocate hds]
    exact relocated_bind fun f => relocated_bind fun args => rfl
  | some form =>
    -- with a wrong number of operands both sides are the same error
    cases form with
    | program =>
      rcases ds with _ | ⟨p, body⟩
      · rfl
      · simp only [Datum.relocateAll]
        rw [Pattern.ofDatum_relocate, ofDatums_relocate (List.forall_mem_cons.mp hds).2]
        exact relocated_bind fun p => relocated_bind fun body => rfl
    | conditional =>
      rcases ds with _ | ⟨p, _ | ⟨t, _ | ⟨e, _ | ⟨d, ds⟩⟩⟩⟩
      · rfl
      · rfl
      · simp only [Datum.relocateAll]
        rw [hds p (by simp), hds t (by simp)]
        exact relocated_bind fun p => relocated_bind fun t => rfl
      · simp only [Datum.relocateAll]
        rw [hds p (by simp), hds t (by simp), hds e (by simp)]
        exact relocated_bind fun p => relocated_bind fun t => relocated_bind fun e => rfl
      · rfl
    | block =>
      simp only
      rw [ofDatums_relocate hds]
      exact relocated_bind fun stmts => rfl
    | define =>
      rcases ds with _ | ⟨p, _ | ⟨v, _ | ⟨d, ds⟩⟩⟩
      · rfl
      · rfl
      · simp only [Datum.relocateAll]
        rw [Pattern.ofDatum_relocate, hds v (by simp)]
        exact relocated_bind fun p => relocated_bind fun v => rfl
      · rfl
    | withAddress =>
      rcases ds with _ | ⟨t, _ | ⟨e, _ | ⟨d, ds⟩⟩⟩
      · rfl
      · rfl
      · simp only [Datum.relocateAll]
        rw [hds t (by simp), hds e (by simp)]
        exact relocated_bind fun t => relocated_bind fun e => rfl
      · rfl
    | tuple =>
      simp only
      rw [ofDatums_relocate hds]
      exact relocated_bind fun es => rfl
    | this =>
      cases ds with
      | nil => rfl
      | cons d ds => rfl
    | splice =>
      rcases ds with _ | ⟨e, _ | ⟨d, ds⟩⟩
      · rfl
      · simp only [Datum.relocateAll]
        rw [hds e (by simp)]
        exact relocated_bind fun e => rfl
      · rfl
    | unquote =>
      rcases ds with _ | ⟨e, _ | ⟨d, ds⟩⟩
      · rfl
      · simp only [Datum.relocateAll]
        rw [hds e (by simp)]
        exact relocated_bind fun e => rfl
      · rfl

/-- places can be replaced before recognition or after it -/
theorem ofDatum_relocate (σ : Span → Span) (d : Datum String) :
    ofDatum (d.relocate σ) = relocated σ (relocate σ) (ofDatum d) := by
  induction d using Datum.childInduction with
  | step d ih =>
    cases d with
    | literal l s => rfl
    | symbol n s =>
      rw [Datum.relocate, ofDatum, ofDatum]
      split
      · rfl
      · rw [reference_relocate]
        exact relocated_map (by intro _; rfl) _
    | vector ds s =>
      have hrender := (Datum.vector ds s).render_relocate σ
      rw [Datum.relocate] at hrender ⊢
      rw [ofDatum, ofDatum, spell_text, hrender]
      rfl
    | list ds s =>
      cases ds with
      | nil => rfl
      | cons head ds => exact ofDatum_list_relocate ih

end Expr

/-! ## without places -/

/-- the datum without its places -/
def Datum.unplaced (d : Datum String) : Datum String := d.relocate fun _ => default

/-- the expression without its places -/
def Expr.unplaced (e : Expr String) : Expr String := e.relocate fun _ => default

/-- what a datum is recognized as depends on its place only in the place -/
theorem Expr.ofDatum_of_unplaced_eq {c d : Datum String} (h : c.unplaced = d.unplaced)
    {e : Expr String}
    (hd : ofDatum d = .ok e) : ∃ f, ofDatum c = .ok f ∧ f.unplaced = e.unplaced := by
  have hc : relocated (fun _ => default) unplaced (ofDatum c) = .ok e.unplaced := by
    show relocated _ (relocate _) (ofDatum c) = _
    rw [← ofDatum_relocate]
    show ofDatum c.unplaced = _
    rw [h, Datum.unplaced, ofDatum_relocate, hd]
    rfl
  cases hf : ofDatum c with
  | ok f =>
    rw [hf] at hc
    exact ⟨f, rfl, Except.ok.inj hc⟩
  | error err =>
    rw [hf] at hc
    cases hc

end TraceFront
