import TraceFront.Proofs.Datum.Reading
import TraceFront.Proofs.Expr.Recognition
import TraceFront.Proofs.Expr.Subterms

/-!
# What recognition refuses

Recognition goes down into the parts of a datum and never into the word that names a form.  An error
is therefore about a part at some depth, and so is every expression that comes out.

* `Datum.parts`             the items of a datum without the word of its form;
* `Datum.TermOf`            a datum that is reached through parts only;
* `FormError.About`         the datum that an error stands at and shows;
* `Expr.error_cases`        an error is about the datum itself, or comes from one of its parts;
* `Expr.exists_about`       so it is about a term at some depth;
* `Expr.exists_spelling`    and the expressions inside an expression are spelled by such terms.
-/

namespace TraceFront

/-! ## terms -/

namespace Datum

/-- the items of a datum, without the word of its form if it is one -/
def parts : Datum String → List (Datum String)
  | list (head :: ds) _ => if head.form?.isSome then ds else head :: ds
  | d => d.items

theorem parts_of_form? {head : Datum String} {f : SpecialForm} (h : head.form? = some f)
    (ds : List (Datum String)) (s : Span) : (list (head :: ds) s).parts = ds := by
  rw [parts, h]
  rfl

theorem parts_of_no_form? {head : Datum String} (h : head.form? = none) (ds : List (Datum String))
    (s : Span) : (list (head :: ds) s).parts = head :: ds := by
  rw [parts, h]
  rfl

theorem parts_subset_items (d : Datum String) : d.parts ⊆ d.items := by
  cases d with
  | list ds s =>
    cases ds with
    | nil => exact List.Subset.refl _
    | cons head ds =>
      rw [parts]
      split
      · exact List.subset_cons_self _ _
      · exact List.Subset.refl _
  | _ => exact List.Subset.refl _

/-- the datum `c` is `d`, or a term of one of the parts of `d` -/
inductive TermOf (c : Datum String) : Datum String → Prop
  | self : TermOf c c
  | part {b d : Datum String} : b ∈ d.parts → TermOf c b → TermOf c d

theorem TermOf.mem_subterms {c d : Datum String} (h : c.TermOf d) : c ∈ d.subterms := by
  induction h with
  | self => exact Datum.mem_subterms.mpr (.inl rfl)
  | part hb _ ih => exact Datum.mem_subterms.mpr (.inr ⟨_, parts_subset_items _ hb, ih⟩)

end Datum

/-- the error stands at the datum and shows it, or names it if it is a symbol -/
inductive FormError.About : FormError → Datum String → Prop
  | malformedExpression (fault : Shapeless) (d : Datum String) :
      About (.malformedExpression d.render fault d.span) d
  | operandCount (form : SpecialForm) (found : Nat) (d : Datum String) :
      About (d.wrongCount form found) d
  | malformedPattern (d : Datum String) : About d.notPattern d
  | reservedWord (n : String) (s : Span) : About (.reservedWord n s) (.symbol n s)
  | reservedSeparator (n : String) (s : Span) : About (.reservedSeparator n s) (.symbol n s)
  | wildcardValue (s : Span) : About (.wildcardValue s) (.symbol Vocabulary.wildcard s)

/-! ## names -/

theorem about_of_reference {n : String} {s : Span} {e : FormError}
    (h : reference n s = .error e) : e.About (.symbol n s) := by
  unfold reference at h
  split at h
  · rename_i hn
    cases h
    rw [hn]
    exact .wildcardValue s
  split at h
  · cases h
    exact .reservedWord n s
  split at h
  · cases h
    exact .reservedSeparator n s
  · cases h

theorem about_of_newName {n : String} {s : Span} {e : FormError} (h : newName n s = .error e) :
    e.About (.symbol n s) := by
  rw [newName_text] at h
  split at h
  · rename_i hn
    cases h
    rw [hn]
    exact .reservedWord _ s
  · exact about_of_reference h

/-! ## patterns -/

namespace Pattern

/-- an error is about the datum itself, or comes from one of its parts -/
theorem error_cases {d : Datum String} {e : FormError} (h : ofDatum d = .error e) :
    e.About d ∨ ∃ c ∈ d.parts, ofDatum c = .error e := by
  cases d with
  | literal l s =>
    cases h
    exact .inl (.malformedPattern _)
  | symbol n s =>
    rw [ofDatum] at h
    split at h
    · cases h
    · exact .inl (about_of_newName (map_eq_error h))
  | vector ds s =>
    rw [ofDatum] at h
    rw [ofDatums_eq_mapM] at h
    exact .inr (exists_of_mapM_error (map_eq_error h))
  | list ds s =>
    cases ds with
    | nil =>
      cases h
      exact .inl (.malformedPattern _)
    | cons head ds =>
      rw [ofDatum] at h
      split at h
      · rename_i hf
        rw [Datum.parts_of_form? hf]
        rw [ofDatums_eq_mapM] at h
        exact .inr (exists_of_mapM_error (map_eq_error h))
      · cases h
        exact .inl (.malformedPattern _)

theorem exists_about {d : Datum String} {e : FormError} (h : ofDatum d = .error e) :
    ∃ c : Datum String, c.TermOf d ∧ e.About c := by
  induction d using Datum.childInduction with
  | step d ih =>
    rcases error_cases h with habout | ⟨b, hb, hbe⟩
    · exact ⟨d, .self, habout⟩
    · obtain ⟨c, hc, habout⟩ := ih b (d.parts_subset_items hb) hbe
      exact ⟨c, .part hb hc, habout⟩

end Pattern

/-! ## expressions -/

namespace Expr

/-- one of the datums is refused, as a pattern or as an expression -/
def RefusedIn (e : FormError) (ds : List (Datum String)) : Prop :=
  ∃ d ∈ ds, Pattern.ofDatum d = .error e ∨ ofDatum d = .error e

section
variable {e : FormError} {α : Type} {d : Datum String} {ds : List (Datum String)}

/-- an expression is recognized first -/
theorem RefusedIn.bind_ofDatum {f : Expr String → Except FormError α}
    (h : (ofDatum d >>= f) = .error e)
    (hrest : ∀ g, f g = .error e → RefusedIn e ds) : RefusedIn e (d :: ds) := by
  rcases bind_eq_error h with h | ⟨g, _, h⟩
  · exact ⟨d, List.mem_cons_self, .inr h⟩
  · obtain ⟨c, hc, hce⟩ := hrest g h
    exact ⟨c, List.mem_cons_of_mem _ hc, hce⟩

/-- a pattern is recognized first -/
theorem RefusedIn.bind_pattern {f : Pattern String → Except FormError α}
    (h : (Pattern.ofDatum d >>= f) = .error e) (hrest : ∀ p, f p = .error e → RefusedIn e ds) :
    RefusedIn e (d :: ds) := by
  rcases bind_eq_error h with h | ⟨p, _, h⟩
  · exact ⟨d, List.mem_cons_self, .inl h⟩
  · obtain ⟨c, hc, hce⟩ := hrest p h
    exact ⟨c, List.mem_cons_of_mem _ hc, hce⟩

/-- all that is left is recognized, and nothing fails after that -/
theorem RefusedIn.bind_ofDatums {f : List (Expr String) → α}
    (h : (ofDatums ds >>= fun es => .ok (f es)) = .error e) : RefusedIn e ds := by
  rw [ofDatums_eq_mapM] at h
  rcases bind_eq_error h with h | ⟨es, _, h⟩
  · obtain ⟨d, hd, hde⟩ := exists_of_mapM_error h
    exact ⟨d, hd, .inr hde⟩
  · cases h

/-- nothing is left to recognize, and so there is no error -/
theorem RefusedIn.of_pure {a : α} (h : (pure a : Except FormError α) = .error e) :
    RefusedIn e [] := by
  cases h

end

theorem error_cases_of_list {head : Datum String} {ds : List (Datum String)} {s : Span}
    {e : FormError} (h : ofDatum (.list (head :: ds) s) = .error e) :
    e.About (.list (head :: ds) s) ∨ RefusedIn e (Datum.list (head :: ds) s).parts := by
  unfold ofDatum at h
  cases hf : head.form? with
  | none =>
    rw [Datum.parts_of_no_form? hf]
    simp only [hf] at h
    exact .inr (.bind_ofDatum h fun _ => .bind_ofDatums)
  | some form =>
    rw [Datum.parts_of_form? hf]
    cases form with
    | program =>
      simp only [hf] at h
      split at h
      · cases h
        exact .inl (.operandCount _ _ _)
      · exact .inr (.bind_pattern h fun _ => .bind_ofDatums)
    | conditional =>
      simp only [hf] at h
      split at h
      · exact .inr (.bind_ofDatum h fun _ h => .bind_ofDatum h fun _ => .of_pure)
      · exact .inr (.bind_ofDatum h fun _ h => .bind_ofDatum h fun _ h =>
          .bind_ofDatum h fun _ => .of_pure)
      · cases h
        exact .inl (.operandCount _ _ _)
    | block =>
      simp only [hf] at h
      exact .inr (.bind_ofDatums h)
    | define =>
      simp only [hf] at h
      split at h
      · exact .inr (.bind_pattern h fun _ h => .bind_ofDatum h fun _ => .of_pure)
      · cases h
        exact .inl (.operandCount _ _ _)
    | withAddress =>
      simp only [hf] at h
      split at h
      · exact .inr (.bind_ofDatum h fun _ h => .bind_ofDatum h fun _ => .of_pure)
      · cases h
        exact .inl (.operandCount _ _ _)
    | tuple =>
      simp only [hf] at h
      exact .inr (.bind_ofDatums h)
    | this =>
      simp only [hf] at h
      split at h
      · cases h
      · cases h
        exact .inl (.operandCount _ _ _)
    | splice =>
      simp only [hf] at h
      split at h
      · exact .inr (.bind_ofDatum h fun _ => .of_pure)
      · cases h
        exact .inl (.operandCount _ _ _)
    | unquote =>
      simp only [hf] at h
      split at h
      · exact .inr (.bind_ofDatum h fun _ => .of_pure)
      · cases h
        exact .inl (.operandCount _ _ _)

/-- an error is about the datum itself, or comes from one of its parts -/
theorem error_cases {d : Datum String} {e : FormError} (h : ofDatum d = .error e) :
    e.About d ∨ RefusedIn e d.parts := by
  cases d with
  | literal l s => cases h
  | symbol n s =>
    rw [ofDatum] at h
    split at h
    · cases h
    · exact .inl (about_of_reference (map_eq_error h))
  | vector ds s =>
    cases h
    exact .inl (.malformedExpression .vector (.vector ds s))
  | list ds s =>
    cases ds with
    | nil =>
      cases h
      exact .inl (.malformedExpression .emptyList (.list [] s))
    | cons head ds => exact error_cases_of_list h

/-- an error is about a term of the datum -/
theorem exists_about {d : Datum String} {e : FormError} (h : ofDatum d = .error e) :
    ∃ c : Datum String, c.TermOf d ∧ e.About c := by
  induction d using Datum.childInduction with
  | step d ih =>
    rcases error_cases h with habout | ⟨b, hb, hbe | hbe⟩
    · exact ⟨d, .self, habout⟩
    · obtain ⟨c, hc, habout⟩ := Pattern.exists_about hbe
      exact ⟨c, .part hb hc, habout⟩
    · obtain ⟨c, hc, habout⟩ := ih b (d.parts_subset_items hb) hbe
      exact ⟨c, .part hb hc, habout⟩

/-! ## where expressions come from -/

theorem ofDatums_cons {d : Datum String} {ds : List (Datum String)} {e : Expr String}
    {es : List (Expr String)}
    (h : ofDatum d = .ok e) (hs : ofDatums ds = .ok es) : ofDatums (d :: ds) = .ok (e :: es) := by
  rw [ofDatums, h, hs]
  rfl

/-- a child of an expression is spelled by one of the parts of its datum -/
theorem exists_part_of_child {d : Datum String} {e g : Expr String} (h : ofDatum d = .ok e)
    (hg : g ∈ e.children) : ∃ c ∈ d.parts, ofDatum c = .ok g := by
  cases spelled_of_ofDatum h with
  | literal l s => cases hg
  | self s => cases hg
  | var s _ => cases hg
  | this s _ => cases hg
  | apply s hf hfun hargs =>
    rw [Datum.parts_of_no_form? hf]
    exact exists_of_mem_ofDatums (ofDatums_cons hfun hargs) hg
  | program s hf _ hbody =>
    rw [Datum.parts_of_form? hf]
    obtain ⟨c, hc, hcg⟩ := exists_of_mem_ofDatums hbody hg
    exact ⟨c, List.mem_cons_of_mem _ hc, hcg⟩
  | ifThen s hf hp ht =>
    rw [Datum.parts_of_form? hf]
    exact exists_of_mem_ofDatums (ofDatums_cons hp (ofDatums_cons ht rfl)) hg
  | ifThenElse s hf hp ht he =>
    rw [Datum.parts_of_form? hf]
    exact exists_of_mem_ofDatums (ofDatums_cons hp (ofDatums_cons ht (ofDatums_cons he rfl))) hg
  | block s hf hstmts =>
    rw [Datum.parts_of_form? hf]
    exact exists_of_mem_ofDatums hstmts hg
  | define s hf _ hv =>
    rw [Datum.parts_of_form? hf]
    obtain rfl := List.mem_singleton.mp hg
    exact ⟨_, List.mem_cons_of_mem _ List.mem_cons_self, hv⟩
  | withAddress s hf ht he =>
    rw [Datum.parts_of_form? hf]
    exact exists_of_mem_ofDatums (ofDatums_cons ht (ofDatums_cons he rfl)) hg
  | tuple s hf hes =>
    rw [Datum.parts_of_form? hf]
    exact exists_of_mem_ofDatums hes hg
  | splice s hf he =>
    rw [Datum.parts_of_form? hf]
    exact exists_of_mem_ofDatums (ofDatums_cons he rfl) hg
  | unquote s hf he =>
    rw [Datum.parts_of_form? hf]
    exact exists_of_mem_ofDatums (ofDatums_cons he rfl) hg

/-- every expression inside an expression is spelled by a term of its datum -/
theorem exists_spelling {d : Datum String} {e g : Expr String} (h : ofDatum d = .ok e)
    (hg : g ∈ e.subterms) : ∃ c : Datum String, c.TermOf d ∧ ofDatum c = .ok g := by
  induction e using childInduction generalizing d with
  | step e ih =>
    rcases mem_subterms.mp hg with rfl | ⟨f, hf, hgf⟩
    · exact ⟨d, .self, h⟩
    · obtain ⟨b, hb, hbf⟩ := exists_part_of_child h hf
      obtain ⟨c, hc, hcg⟩ := ih f hf hbf hgf
      exact ⟨c, .part hb hc, hcg⟩

end Expr

end TraceFront
