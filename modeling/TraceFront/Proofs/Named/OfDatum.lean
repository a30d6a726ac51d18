import TraceFront.Named.OfDatum
import TraceFront.Proofs.Datum.Reading
import TraceFront.Proofs.Expr.Recognition
import TraceFront.Proofs.Named.Transcription

/-!
# Recognition of handles is recognition

Recognition compares names with a few others and looks at the texts of some.  If handles are equal
exactly when their texts are, and lead to these texts, then it makes no difference whether handles
are put for texts before or after.

* `Faithful`               handles that are as good as the texts that are known;
* `Expr.ofDatum_map`       recognition of a datum with such handles;
* `Expr.names_ofDatum`     the names in an expression are names of its datum;
* `FormParser.faithful`    the handles that a form parser compares are faithful;
* `transcribes_parse`      so the parser gives the expressions of the datums, with handles.
-/

namespace TraceFront

/-- handles that are compared, looked up and shown as the texts that are known -/
structure Faithful {ν : Type} [Lexicon ν] (ρ : String → ν) (known : String → Prop) : Prop where
  inj : ∀ {a b : String}, known a → known b → ρ a = ρ b → a = b
  wildcard : known Vocabulary.wildcard ∧ Lexicon.wildcard = ρ Vocabulary.wildcard
  selfReference : known Vocabulary.selfReference ∧ Lexicon.selfReference = ρ Vocabulary.selfReference
  form? : ∀ {a : String}, known a → Lexicon.form? (ρ a) = SpecialForm.ofWord? a
  text : ∀ {a : String}, known a → Lexicon.text (ρ a) = a
  spell : ∀ {d : Datum String}, (∀ n ∈ d.names, known n) → Lexicon.spell (d.map ρ) = d

theorem bind_map_eq_map_bind {ε α β γ δ : Type} {g : α → β} {h : γ → δ} {x : Except ε α}
    {f : α → Except ε γ} {f' : β → Except ε δ} (hf : ∀ a, f' (g a) = (f a).map h) :
    (x.map g >>= f') = (x >>= f).map h := by
  cases x with
  | ok a => exact hf a
  | error e => rfl

theorem map_map_eq_map_map {ε α β γ δ : Type} {g : α → β} {h : γ → δ} {f : α → γ} {f' : β → δ}
    (hf : ∀ a, f' (g a) = h (f a)) (x : Except ε α) : (x.map g).map f' = (x.map f).map h := by
  cases x with
  | ok a => exact congrArg Except.ok (hf a)
  | error e => rfl

theorem Datum.names_of_mem_items {c d : Datum String} (hc : c ∈ d.items) : c.names ⊆ d.names := by
  intro n hn
  cases d with
  | literal l s => cases hc
  | symbol m s => cases hc
  | list ds s => exact mem_namesAll.mpr ⟨c, hc, hn⟩
  | vector ds s => exact mem_namesAll.mpr ⟨c, hc, hn⟩

theorem Datum.known_of_mem_items {known : String → Prop} {c d : Datum String}
    (hd : ∀ n ∈ d.names, known n) (hc : c ∈ d.items) : ∀ n ∈ c.names, known n :=
  fun n hn => hd n (names_of_mem_items hc hn)

theorem Expr.ofDatums_map {ν : Type} [DecidableEq ν] [Lexicon ν] {ρ : String → ν}
    {ds : List (Datum String)} (h : ∀ d ∈ ds, ofDatum (d.map ρ) = (ofDatum d).map (map ρ)) :
    ofDatums (Datum.mapAll ρ ds) = (ofDatums ds).map (mapAll ρ) := by
  induction ds with
  | nil => rfl
  | cons d ds ih =>
    obtain ⟨hd, hds⟩ := List.forall_mem_cons.mp h
    rw [Datum.mapAll, ofDatums, ofDatums, hd, ih hds]
    exact bind_map_eq_map_bind fun e => bind_map_eq_map_bind fun es => rfl

section
variable {ν : Type} [Lexicon ν] {ρ : String → ν} {known : String → Prop} (hρ : Faithful ρ known)
include hρ

/-! ## names -/

theorem Faithful.eq_wildcard_iff {n : String} (hn : known n) :
    ρ n = Lexicon.wildcard ↔ n = Vocabulary.wildcard := by
  rw [hρ.wildcard.2]
  exact ⟨hρ.inj hn hρ.wildcard.1, congrArg ρ⟩

theorem Faithful.eq_selfReference_iff {n : String} (hn : known n) :
    ρ n = Lexicon.selfReference ↔ n = Vocabulary.selfReference := by
  rw [hρ.selfReference.2]
  exact ⟨hρ.inj hn hρ.selfReference.1, congrArg ρ⟩

theorem reference_map [DecidableEq ν] {n : String} (hn : known n) (s : Span) :
    reference (ρ n) s = (reference n s).map ρ := by
  simp only [reference_text]
  unfold reference
  simp only [hρ.eq_wildcard_iff hn, hρ.text hn]
  split
  · rfl
  split
  · rfl
  split
  · rfl
  · rfl

theorem newName_map [DecidableEq ν] {n : String} (hn : known n) (s : Span) :
    newName (ρ n) s = (newName n s).map ρ := by
  simp only [newName_text]
  unfold newName
  simp only [hρ.eq_selfReference_iff hn, reference_map hρ hn]
  split
  · rfl
  · rfl

/-! ## datums -/

namespace Datum

variable {d : Datum String} (hd : ∀ n ∈ d.names, known n)
include hd

theorem form?_map : (d.map ρ).form? = d.form? := by
  cases d with
  | symbol n s => exact hρ.form? (hd n List.mem_cons_self)
  | _ => rfl

theorem notPattern_map : (d.map ρ).notPattern = d.notPattern := by
  rw [notPattern, notPattern, hρ.spell hd, span_map]
  rfl

theorem wrongCount_map (form : SpecialForm) (found : Nat) :
    (d.map ρ).wrongCount form found = d.wrongCount form found := by
  rw [wrongCount, wrongCount, hρ.spell hd, span_map]
  rfl

end Datum

/-! ## patterns -/

variable [DecidableEq ν]

theorem Pattern.ofDatum_map (d : Datum String) (hd : ∀ n ∈ d.names, known n) :
    ofDatum (d.map ρ) = (ofDatum d).map (map ρ) := by
  induction d using Datum.childInduction with
  | step d ih =>
    have all : ∀ ds, (∀ c ∈ ds, c ∈ d.items) →
        ofDatums (Datum.mapAll ρ ds) = (ofDatums ds).map (mapAll ρ) := by
      intro ds hds
      induction ds with
      | nil => rfl
      | cons c cs ihs =>
        obtain ⟨hc, hcs⟩ := List.forall_mem_cons.mp hds
        rw [Datum.mapAll, ofDatums, ofDatums, ih c hc (Datum.known_of_mem_items hd hc), ihs hcs]
        exact bind_map_eq_map_bind fun p => bind_map_eq_map_bind fun ps => rfl
    cases d with
    | literal l s =>
      have hnot := Datum.notPattern_map hρ hd
      rw [Datum.map] at hnot ⊢
      rw [ofDatum, ofDatum, hnot]
      rfl
    | symbol n s =>
      have hn : known n := hd n List.mem_cons_self
      rw [Datum.map, ofDatum_symbol, ofDatum, newName_map hρ hn]
      simp only [hρ.eq_wildcard_iff hn]
      split
      · rfl
      · exact map_map_eq_map_map (by intro _; rfl) _
    | vector ds s =>
      rw [Datum.map, ofDatum, ofDatum, all ds fun c hc => hc]
      exact map_map_eq_map_map (by intro _; rfl) _
    | list ds s =>
      have hnot := Datum.notPattern_map hρ hd
      cases ds with
      | nil =>
        rw [Datum.map, Datum.mapAll] at hnot ⊢
        rw [ofDatum, ofDatum, hnot]
        rfl
      | cons c cs =>
        have hform := Datum.form?_map hρ (Datum.known_of_mem_items hd (c := c) List.mem_cons_self)
        rw [Datum.map, Datum.mapAll] at hnot ⊢
        rw [ofDatum, ofDatum, hform, hnot]
        split
        · rw [all cs fun c hc => List.mem_cons_of_mem _ hc]
          exact map_map_eq_map_map (by intro _; rfl) _
        · rfl

/-! ## expressions -/

namespace Expr

/-- a list of handles is the same form, and has the same number of operands -/
theorem ofDatum_list_map {head : Datum String} {ds : List (Datum String)} {s : Span}
    (hnames : ∀ n ∈ (Datum.list (head :: ds) s).names, known n)
    (h : ∀ d ∈ head :: ds, ofDatum (d.map ρ) = (ofDatum d).map (map ρ)) :
    ofDatum ((Datum.list (head :: ds) s).map ρ) =
      (ofDatum (.list (head :: ds) s)).map (map ρ) := by
  have hcount := Datum.wrongCount_map hρ hnames
  have hitem : ∀ c ∈ head :: ds, ∀ n ∈ c.names, known n := fun c hc =>
    Datum.known_of_mem_items hnames hc
  have hpattern : ∀ c ∈ head :: ds, Pattern.ofDatum (c.map ρ) = (Pattern.ofDatum c).map (.map ρ) :=
    fun c hc => Pattern.ofDatum_map hρ c (hitem c hc)
  obtain ⟨hhead, hds⟩ := List.forall_mem_cons.mp h
  rw [Datum.map, Datum.mapAll] at hcount ⊢
  have hlength : (Datum.mapAll ρ ds).length = ds.length := by
    rw [Datum.mapAll_eq_map, List.length_map]
  unfold ofDatum
  simp only [Datum.form?_map hρ (hitem head List.mem_cons_self), hcount, hlength]
  cases head.form? with
  | none =>
    simp only
    rw [hhead, ofDatums_map hds]
    exact bind_map_eq_map_bind fun f => bind_map_eq_map_bind fun args => rfl
  | some form =>
    -- with a wrong number of operands both sides are the same error
    cases form with
    | program =>
      rcases ds with _ | ⟨p, body⟩
      · rfl
      · simp only [Datum.mapAll]
        rw [hpattern p (by simp), ofDatums_map (List.forall_mem_cons.mp hds).2]
        exact bind_map_eq_map_bind fun p => bind_map_eq_map_bind fun body => rfl
    | conditional =>
      rcases ds with _ | ⟨p, _ | ⟨t, _ | ⟨e, _ | ⟨d, ds⟩⟩⟩⟩
      · rfl
      · rfl
      · simp only [Datum.mapAll]
        rw [hds p (by simp), hds t (by simp)]
        exact bind_map_eq_map_bind fun p => bind_map_eq_map_bind fun t => rfl
      · simp only [Datum.mapAll]
        rw [hds p (by simp), hds t (by simp), hds e (by simp)]
        exact bind_map_eq_map_bind fun p => bind_map_eq_map_bind fun t =>
          bind_map_eq_map_bind fun e => rfl
      · rfl
    | block =>
      simp only
      rw [ofDatums_map hds]
      exact bind_map_eq_map_bind fun stmts => rfl
    | define =>
      rcases ds with _ | ⟨p, _ | ⟨v, _ | ⟨d, ds⟩⟩⟩
      · rfl
      · rfl
      · simp only [Datum.mapAll]
        rw [hpattern p (by simp), hds v (by simp)]
        exact bind_map_eq_map_bind fun p => bind_map_eq_map_bind fun v => rfl
      · rfl
    | withAddress =>
      rcases ds with _ | ⟨t, _ | ⟨e, _ | ⟨d, ds⟩⟩⟩
      · rfl
      · rfl
      · simp only [Datum.mapAll]
        rw [hds t (by simp), hds e (by simp)]
        exact bind_map_eq_map_bind fun t => bind_map_eq_map_bind fun e => rfl
      · rfl
    | tuple =>
      simp only
      rw [ofDatums_map hds]
      exact bind_map_eq_map_bind fun es => rfl
    | this =>
      cases ds with
      | nil => rfl
      | cons d ds => rfl
    | splice =>
      rcases ds with _ | ⟨e, _ | ⟨d, ds⟩⟩
      · rfl
      · simp only [Datum.mapAll]
        rw [hds e (by simp)]
        exact bind_map_eq_map_bind fun e => rfl
      · rfl
    | unquote =>
      rcases ds with _ | ⟨e, _ | ⟨d, ds⟩⟩
      · rfl
      · simp only [Datum.mapAll]
        rw [hds e (by simp)]
        exact bind_map_eq_map_bind fun e => rfl
      · rfl

/-- handles can be put for texts before recognition or after it -/
theorem ofDatum_map (d : Datum String) (hd : ∀ n ∈ d.names, known n) :
    ofDatum (d.map ρ) = (ofDatum d).map (map ρ) := by
  induction d using Datum.childInduction with
  | step d ih =>
    cases d with
    | literal l s => rfl
    | symbol n s =>
      have hn : known n := hd n List.mem_cons_self
      rw [Datum.map, ofDatum_symbol, ofDatum, reference_map hρ hn]
      simp only [hρ.eq_selfReference_iff hn]
      split
      · rfl
      · exact map_map_eq_map_map (by intro _; rfl) _
    | vector ds s =>
      have hspell := hρ.spell hd
      rw [Datum.map] at hspell ⊢
      rw [ofDatum, ofDatum, hspell]
      rfl
    | list ds s =>
      cases ds with
      | nil =>
        have hspell := hρ.spell hd
        rw [Datum.map, Datum.mapAll] at hspell ⊢
        rw [ofDatum, ofDatum, hspell]
        rfl
      | cons head ds =>
        exact ofDatum_list_map hρ hd fun c hc => ih c hc (Datum.known_of_mem_items hd hc)

theorem ofDatums_map_of_known {ds : List (Datum String)}
    (h : ∀ n ∈ Datum.namesAll ds, known n) :
    ofDatums (ds.map (Datum.map ρ)) = (ofDatums ds).map (List.map (map ρ)) := by
  have hall : ∀ d ∈ ds, ofDatum (d.map ρ) = (ofDatum d).map (map ρ) := fun d hd =>
    ofDatum_map hρ d fun n hn => h n (Datum.mem_namesAll.mpr ⟨d, hd, hn⟩)
  rw [← Datum.mapAll_eq_map, ofDatums_map hall]
  exact congrArg (Except.map · (ofDatums ds)) (funext (mapAll_eq_map ρ))

end Expr

end

/-! ## names of what is recognized -/

namespace Pattern

theorem bindersAll_ofDatums {ds : List (Datum String)} {ps : List (Pattern String)}
    (hds : ∀ d ∈ ds, ∀ p, ofDatum d = .ok p → p.binders ⊆ d.names) (h : ofDatums ds = .ok ps) :
    bindersAll ps ⊆ Datum.namesAll ds := by
  intro n hn
  rw [bindersAll_eq_flatMap] at hn
  obtain ⟨p, hp, hn⟩ := List.mem_flatMap.mp hn
  obtain ⟨d, hd, hdp⟩ := exists_of_mem_ofDatums h hp
  exact Datum.mem_namesAll.mpr ⟨d, hd, hds d hd p hdp hn⟩

theorem binders_ofDatum (d : Datum String) : ∀ p, ofDatum d = .ok p → p.binders ⊆ d.names := by
  induction d using Datum.childInduction with
  | step d ih =>
    intro p h
    cases spelled_of_ofDatum h with
    | wildcard s => exact List.nil_subset _
    | name s _ => exact List.Subset.refl _
    | vector s hds => exact bindersAll_ofDatums ih hds
    | tuple s _ hds =>
      have hitems := bindersAll_ofDatums (fun d hd => ih d (List.mem_cons_of_mem _ hd)) hds
      exact List.Subset.trans hitems (List.subset_append_right _ _)

end Pattern

namespace Expr

theorem namesAll_ofDatums {ds : List (Datum String)} {es : List (Expr String)}
    (hds : ∀ d ∈ ds, ∀ e, ofDatum d = .ok e → e.names ⊆ d.names) (h : ofDatums ds = .ok es) :
    namesAll es ⊆ Datum.namesAll ds := by
  intro n hn
  obtain ⟨e, he, hn⟩ := mem_namesAll.mp hn
  obtain ⟨d, hd, hde⟩ := exists_of_mem_ofDatums h he
  exact Datum.mem_namesAll.mpr ⟨d, hd, hds d hd e hde hn⟩

theorem names_ofDatum (d : Datum String) : ∀ e, ofDatum d = .ok e → e.names ⊆ d.names := by
  induction d using Datum.childInduction with
  | step d ih =>
    intro e h
    have hitem : ∀ c ∈ d.items, ∀ g, ofDatum c = .ok g → g.names ⊆ d.names := fun c hc g hg =>
      List.Subset.trans (ih c hc g hg) (Datum.names_of_mem_items hc)
    have hpattern : ∀ c ∈ d.items, ∀ p, Pattern.ofDatum c = .ok p → p.binders ⊆ d.names :=
      fun c hc p hp =>
        List.Subset.trans (Pattern.binders_ofDatum c p hp) (Datum.names_of_mem_items hc)
    have hitems : ∀ ds, (∀ c ∈ ds, c ∈ d.items) → ∀ es, ofDatums ds = .ok es →
        namesAll es ⊆ d.names := by
      intro ds hds es hes n hn
      obtain ⟨g, hg, hn⟩ := mem_namesAll.mp hn
      obtain ⟨c, hc, hcg⟩ := exists_of_mem_ofDatums hes hg
      exact hitem c (hds c hc) g hcg hn
    cases spelled_of_ofDatum h with
    | literal l s => exact List.Subset.refl _
    | self s => exact List.nil_subset _
    | var s _ => exact List.Subset.refl _
    | this s _ => exact List.nil_subset _
    | apply s _ hf hargs =>
      exact List.append_subset.mpr ⟨hitem _ (by simp [Datum.items]) _ hf,
        hitems _ (by simp +contextual [Datum.items]) _ hargs⟩
    | program s _ hp hbody =>
      exact List.append_subset.mpr ⟨hpattern _ (by simp [Datum.items]) _ hp,
        hitems _ (by simp +contextual [Datum.items]) _ hbody⟩
    | ifThen s _ hp ht =>
      exact List.append_subset.mpr ⟨hitem _ (by simp [Datum.items]) _ hp,
        hitem _ (by simp [Datum.items]) _ ht⟩
    | ifThenElse s _ hp ht he =>
      exact List.append_subset.mpr ⟨List.append_subset.mpr
        ⟨hitem _ (by simp [Datum.items]) _ hp, hitem _ (by simp [Datum.items]) _ ht⟩,
        hitem _ (by simp [Datum.items]) _ he⟩
    | block s _ hstmts => exact hitems _ (by simp +contextual [Datum.items]) _ hstmts
    | define s _ hp hv =>
      exact List.append_subset.mpr ⟨hpattern _ (by simp [Datum.items]) _ hp,
        hitem _ (by simp [Datum.items]) _ hv⟩
    | withAddress s _ ht he =>
      exact List.append_subset.mpr ⟨hitem _ (by simp [Datum.items]) _ ht,
        hitem _ (by simp [Datum.items]) _ he⟩
    | tuple s _ hes => exact hitems _ (by simp +contextual [Datum.items]) _ hes
    | @splice head c g s _ hg => exact hitem c (by simp [Datum.items]) g hg
    | @unquote head c g s _ hg => exact hitem c (by simp [Datum.items]) g hg

end Expr

/-! ## the parser -/

open Interning

namespace FormParser

/-- the texts that a form parser takes in -/
def vocabulary : List String :=
  Vocabulary.words ++ [Vocabulary.selfReference, Vocabulary.wildcard]

/-- the parser whose handles are those of `ρ` -/
def ofHandles (ρ : String → Name) (t : Interner) : FormParser :=
  ⟨t, SpecialForm.all.map fun f => (ρ f.word, f), ρ Vocabulary.selfReference, ρ Vocabulary.wildcard⟩

theorem faithful {t later : Interner} {known : List String} (hvocabulary : vocabulary ⊆ known)
    (ht : ∀ n ∈ known, t.Knows n) (h : t.Extends later) :
    @Faithful Name (ofHandles later.nameOf t).lexicon later.nameOf (· ∈ known) := by
  have hinj : ∀ {a b : String}, a ∈ known → b ∈ known → later.nameOf a = later.nameOf b → a = b :=
    fun ha hb => (Interner.nameOf_eq_iff ((ht _ ha).mono h) ((ht _ hb).mono h)).mp
  have htext : ∀ {a : String}, a ∈ known → t.textOf (later.nameOf a) = a :=
    fun ha => Interner.textOf_later (ht _ ha) h
  have hword : ∀ f : SpecialForm, f.word ∈ known := fun f =>
    hvocabulary (List.mem_append_left _ (List.mem_map_of_mem (SpecialForm.mem_all f)))
  let := (ofHandles later.nameOf t).lexicon
  refine ⟨hinj, ⟨hvocabulary (by simp [vocabulary]), rfl⟩, ⟨hvocabulary (by simp [vocabulary]), rfl⟩,
    ?_, htext, ?_⟩
  · intro a ha
    have hsame : ∀ f : SpecialForm, (later.nameOf f.word == later.nameOf a) = (f.word == a) := by
      intro f
      rw [Bool.eq_iff_iff, beq_iff_eq, beq_iff_eq]
      exact ⟨hinj (hword f) ha, congrArg _⟩
    show ((SpecialForm.all.map fun f => (later.nameOf f.word, f)).find?
      fun f => f.1 == later.nameOf a).map Prod.snd = SpecialForm.all.find? fun f => f.word == a
    rw [List.find?_map, Option.map_map]
    simp only [Function.comp_def, hsame]
    exact Option.map_id'
  · intro d hd
    exact Datum.map_map_eq_self d fun n hn => htext (hd n hn)

theorem transcribes_words {ε : Type} (fs : List SpecialForm) : Transcribes []
    (fun _ => (fs.mapM fun f => return (← intern f.word, f) : Interning ε _))
    (fun ρ => .ok (fs.map fun f => (ρ f.word, f))) (fs.map SpecialForm.word) := by
  induction fs with
  | nil => exact transcribes_pure _ (List.Subset.refl _)
  | cons f fs ih =>
    simp only [List.mapM_cons, bind_assoc, pure_bind]
    refine (transcribes_intern f.word).bind ?_
    refine (ih.weaken (List.nil_subset _) (List.subset_append_right _ _)).bind ?_
    exact transcribes_pure _ (by simp)

theorem transcribes_parse (ds : List (Datum String)) {known names : List String}
    (hds : Datum.namesAll ds ⊆ vocabulary ++ known) (hnames : names ⊆ vocabulary ++ known) :
    Transcribes known
      (fun ρ => FormParser.new >>= fun v => ofExcept (v.parse (ds.map (Datum.map ρ))))
      (fun ρ => (Expr.ofDatums ds).map (List.map (Expr.map ρ))) names := by
  unfold new
  simp only [bind_assoc, pure_bind]
  have hwords := transcribes_words (ε := FormError) SpecialForm.all
  refine (hwords.weaken (List.nil_subset _) (List.subset_append_right _ _)).bind ?_
  refine (transcribes_intern _).bind ?_
  refine (transcribes_intern _).bind ?_
  -- everything that is compared or looked up is known now
  have hall : vocabulary ++ known ⊆ known ++ SpecialForm.all.map SpecialForm.word ++
      [Vocabulary.selfReference] ++ [Vocabulary.wildcard] := by
    unfold vocabulary Vocabulary.words
    grind
  refine transcribes_get (fun ρ t => (ofHandles ρ t).parse (ds.map (Datum.map ρ))) ?_
    (List.Subset.trans hnames hall)
  intro t later ht hlater
  let := (ofHandles later.nameOf t).lexicon
  have hvocabulary := List.Subset.trans (List.subset_append_left vocabulary known) hall
  exact Expr.ofDatums_map_of_known (faithful hvocabulary ht hlater) fun n hn => hall (hds hn)

end FormParser

end TraceFront
