import TraceFront.Proofs.Core.Warnings
import TraceFront.Proofs.Named.Transcription

/-!
# Desugaring of handles is desugaring

The names that desugaring synthesizes are taken in one after the other, in an order of their own.
They make no difference to the core term, which has handles for the same names.

* `Following.map`                what follows a statement, with other names;
* `Pattern.transcribes_define`   a definition in front of what follows;
* `Expr.transcribes_toCore`      the core term of an expression and the warnings about it;
* `Expr.transcribes_scanAll`     the scan of the statements of a sequence.
-/

namespace TraceFront

variable {ν μ : Type}

/-! ## terms with other names -/

namespace Core

theorem map_bindAll (f : ν → μ) (bs : List (ν × Core ν)) (body : Core ν) :
    (bindAll bs body).map f = bindAll (mapBindings f bs) (body.map f) := by
  induction bs with
  | nil => rfl
  | cons b bs ih => rw [bindAll_cons, map, ih]; rfl

theorem names_bindAll (bs : List (ν × Core ν)) (body : Core ν) :
    (bindAll bs body).names ⊆ namesBindings bs ++ body.names := by
  induction bs with
  | nil => exact List.Subset.refl _
  | cons b bs ih =>
    rw [bindAll_cons, names, namesBindings]
    grind

theorem mapBindings_append (f : ν → μ) (bs bs' : List (ν × Core ν)) :
    mapBindings f (bs ++ bs') = mapBindings f bs ++ mapBindings f bs' := by
  simp [mapBindings_eq_map]

theorem namesBindings_append (bs bs' : List (ν × Core ν)) :
    namesBindings (bs ++ bs') = namesBindings bs ++ namesBindings bs' := by
  induction bs with
  | nil => rfl
  | cons b bs ih => simp [namesBindings, ih]

end Core

theorem map_defineFunction (f : ν → μ) (n : ν) (function rest : Core ν) (join : Bool) :
    (defineFunction n function rest join).map f =
      defineFunction (f n) (function.map f) (rest.map f) join := by
  cases rest with
  | bindGroup bs body => cases join <;> rfl
  | _ => rfl

theorem names_defineFunction (n : ν) (function rest : Core ν) (join : Bool) :
    (defineFunction n function rest join).names ⊆ n :: (function.names ++ rest.names) := by
  cases rest with
  | bindGroup bs body =>
    cases join with
    | false => simp [defineFunction, Core.names, Core.namesBindings]
    | true => simp [defineFunction, Core.names, Core.namesBindings]
  | _ => simp [defineFunction, Core.names, Core.namesBindings]

namespace Following

def map (f : ν → μ) (k : Following ν) : Following μ :=
  ⟨k.core.map (Core.map f), k.steps.map (Core.map f), k.startsGroup⟩

/-- the names in what follows -/
def names (k : Following ν) : List ν := Core.namesAll k.steps ++ (k.core.map Core.names).getD []

theorem joinable_map (f : ν → μ) (k : Following ν) : (k.map f).joinable = k.joinable := by
  rw [joinable, joinable, map, List.isEmpty_map]

theorem term?_map (f : ν → μ) (k : Following ν) : (k.map f).term? = k.term?.map (Core.map f) := by
  obtain ⟨core, steps, startsGroup⟩ := k
  rcases steps with _ | ⟨c, _ | ⟨d, ds⟩⟩
  · rfl
  · cases core <;> rfl
  · cases core <;> simp [term?, map, Core.map, Core.mapAll_eq_map]

theorem map_getD_term? (f : ν → μ) (k : Following ν) (c : Core ν) :
    (k.term?.getD c).map f = (k.map f).term?.getD (c.map f) := by
  rw [term?_map]
  cases k.term? <;> rfl

theorem names_term? (k : Following ν) {c : Core ν} (hc : k.term? = some c) :
    c.names ⊆ k.names := by
  obtain ⟨core, steps, startsGroup⟩ := k
  rcases steps with _ | ⟨d, _ | ⟨d', ds⟩⟩
  · cases hc
    exact List.Subset.refl _
  · cases core with
    | none => cases hc; simp [names, Core.namesAll]
    | some e => cases hc; simp [names, Core.names, Core.namesAll]
  · cases core with
    | none => cases hc; simp [names, Core.names, Core.namesAll_eq_flatMap]
    | some e => cases hc; simp [names, Core.names, Core.namesAll_eq_flatMap]

theorem names_getD_term? (k : Following ν) (c : Core ν) :
    (k.term?.getD c).names ⊆ k.names ++ c.names := by
  cases h : k.term? with
  | none => exact List.subset_append_right _ _
  | some d => exact List.subset_append_of_subset_left _ (k.names_term? h)

end Following

/-! ## patterns -/

open Desugaring

namespace Pattern

/-- the texts of the names in a pattern lead to the name of the whole -/
theorem transcribes_wholeName {known : List String} (p : Pattern String)
    (h : p.binders ⊆ known) : Transcribes known
      (fun ρ => get >>= fun d => intern ((p.map ρ).map d.interner.textOf).wholeName)
      (fun ρ => ρ p.wholeName) [] [p.wholeName] := by
  refine (transcribes_intern p.wholeName).get_bind
    (k := fun ρ t => intern ((p.map ρ).map t.textOf).wholeName) ?_
  intro t later ht hlater
  rw [map_map_eq_self p fun n hn => Interner.textOf_later (ht n (h hn)) hlater]

theorem transcribes_synthesize {known : List String} (p : Pattern String)
    (h : p.binders ⊆ known) : Transcribes known (fun ρ => (p.map ρ).synthesize)
      (fun ρ => ρ p.wholeName) [] [p.wholeName] := by
  cases p with
  | name n => exact transcribes_pure _ h
  | wildcard => exact transcribes_wholeName wildcard h
  | tuple ps => exact transcribes_wholeName (tuple ps) h

mutual

theorem transcribes_destructureInto {value : Core String} : ∀ (p : Pattern String)
    {known : List String}, value.names ⊆ known → p.binders ⊆ known →
      Transcribes known (fun ρ => destructureInto (value.map ρ) (p.map ρ))
        (fun ρ => Core.mapBindings ρ (partBindings value p)) []
        (Core.namesBindings (partBindings value p))
  | name n, known, hvalue, hp => transcribes_pure _ (by
      simp only [partBindings, Core.namesBindings, List.append_nil]
      exact List.cons_subset.mpr ⟨hp List.mem_cons_self, hvalue⟩)
  | wildcard, known, _, _ => transcribes_pure _ (List.nil_subset _)
  | tuple ps, known, hvalue, hps => by
    refine (transcribes_synthesize (tuple ps) hps).bind ?_
    have hwhole : (tuple ps).wholeName ∈ known ++ [(tuple ps).wholeName] := by simp
    refine (transcribes_destructureItems ps 0 hwhole
      (List.subset_append_of_subset_left _ hps)).map ?_
    simp only [partBindings, Core.namesBindings]
    grind

theorem transcribes_destructureItems {whole : String} : ∀ (ps : List (Pattern String)) (index : Nat)
    {known : List String}, whole ∈ known → bindersAll ps ⊆ known →
      Transcribes known (fun ρ => destructureItems (ρ whole) index (mapAll ρ ps))
        (fun ρ => Core.mapBindings ρ (itemBindings whole index ps)) []
        (Core.namesBindings (itemBindings whole index ps))
  | [], _, _, _, _ => transcribes_pure _ (List.nil_subset _)
  | p :: ps, index, known, hwhole, hps => by
    obtain ⟨hp, hps⟩ := List.append_subset.mp hps
    have hproject : (Core.project (.var whole) index).names ⊆ known := by
      simpa [Core.names] using hwhole
    simp only [itemBindings, Core.mapBindings_append, Core.namesBindings_append]
    refine (transcribes_destructureInto p hproject hp).bind ?_
    refine (transcribes_destructureItems ps (index + 1) (List.mem_append_left _ hwhole)
      (List.subset_append_of_subset_left _ hps)).map ?_
    grind

end

theorem transcribes_destructure {known : List String} {value : Core String} (p : Pattern String)
    (hvalue : value.names ⊆ known) (hp : p.binders ⊆ known) :
    Transcribes known (fun ρ => (p.map ρ).destructure (value.map ρ))
      (fun ρ => Core.mapBindings ρ (p.bindings value)) [] (Core.namesBindings (p.bindings value)) := by
  cases p with
  | wildcard =>
    refine (transcribes_intern Vocabulary.wildcard).map ?_
    simp only [bindings, Core.namesBindings]
    grind
  | name n => exact transcribes_destructureInto (name n) hvalue hp
  | tuple ps => exact transcribes_destructureInto (tuple ps) hvalue hp

theorem transcribes_destructureParameter {known : List String} (p : Pattern String)
    (hp : p.binders ⊆ known) (hwhole : p.wholeName ∈ known) :
    Transcribes known (fun ρ => (p.map ρ).destructureParameter (ρ p.wholeName))
      (fun ρ => Core.mapBindings ρ p.projections) [] (Core.namesBindings p.projections) := by
  cases p with
  | tuple ps =>
    have hvar : (Core.var (tuple ps).wholeName).names ⊆ known := by simpa [Core.names] using hwhole
    refine (transcribes_destructure (tuple ps) hvar hp).map ?_
    rw [bindings_tuple, Core.namesBindings]
    grind
  | _ => exact transcribes_pure _ (List.nil_subset _)

theorem transcribes_define {known : List String} {value rest : Core String} (p : Pattern String)
    (isFunction join : Bool) (hp : p.binders ⊆ known) (hvalue : value.names ⊆ known)
    (hrest : rest.names ⊆ known) :
    Transcribes known (fun ρ => (p.map ρ).define isFunction (value.map ρ) (rest.map ρ) join)
      (fun ρ => (definePattern p isFunction value rest join).map ρ) []
      (definePattern p isFunction value rest join).names := by
  have hbindings : Transcribes known
      (fun ρ => (p.map ρ).destructure (value.map ρ) >>= fun bs =>
        pure (Core.bindAll bs (rest.map ρ)))
      (fun ρ => (Core.bindAll (p.bindings value) rest).map ρ) []
      (Core.bindAll (p.bindings value) rest).names := by
    simp only [Core.map_bindAll]
    refine (transcribes_destructure p hvalue hp).map ?_
    have := Core.names_bindAll (p.bindings value) rest
    grind
  cases p with
  | name n =>
    cases isFunction with
    | true =>
      simp only [definePattern, map_defineFunction]
      refine transcribes_pure _ ?_
      have := names_defineFunction n value rest join
      have hn : n ∈ known := hp List.mem_cons_self
      grind
    | false => exact hbindings
  | _ => exact hbindings

theorem transcribes_restAfter {known : List String} (p : Pattern String) (span : Span)
    (following : Option (Core String)) (hp : p.binders ⊆ known)
    (hfollowing : ∀ rest, following = some rest → rest.names ⊆ known) :
    Transcribes known (fun ρ => (p.map ρ).restAfter span (following.map (Core.map ρ)))
      (fun ρ => (following.getD (.var p.wholeName)).map ρ)
      (if following.isNone then [⟨p.wholeName, span⟩] else [])
      (following.getD (.var p.wholeName)).names := by
  cases following with
  | some rest => exact transcribes_pure _ (hfollowing rest rfl)
  | none =>
    refine (transcribes_synthesize p hp).bind ?_
    refine (transcribes_textOf (s := p.wholeName) (by simp)).bind ?_
    refine (transcribes_warn ⟨p.wholeName, span⟩).map ?_
    simp [Core.names]

end Pattern

/-! ## expressions -/

namespace Expr

theorem scanAll_expression {e : Expr String} (h : e.isDefinition = false) (ρ : String → Name)
    (stmts : List (Expr Name)) : scanAll (e.map ρ :: stmts) =
      scanAll stmts >>= fun k => (e.map ρ).toCore >>= fun c => pure (k.step c) := by
  cases e with
  | define p v s => cases h
  | _ => rfl

theorem transcribes_scan_expression {e : Expr String} (h : e.isDefinition = false)
    {stmts : List (Expr String)} {known : List String}
    (hstmts : Transcribes known (fun ρ => scanAll (mapAll ρ stmts))
      (fun ρ => (following stmts).map ρ) (trailingInBlock stmts) (following stmts).names)
    (he : Transcribes (known ++ (following stmts).names) (fun ρ => (e.map ρ).toCore)
      (fun ρ => e.core.map ρ) e.trailingDefinitions e.core.names) :
    Transcribes known (fun ρ => scanAll (mapAll ρ (e :: stmts)))
      (fun ρ => (following (e :: stmts)).map ρ) (trailingInBlock (e :: stmts))
      (following (e :: stmts)).names := by
  simp only [mapAll, scanAll_expression h]
  rw [following_expression h, trailingInBlock_cons, asTrailing_of_not_definition h, ite_self,
    List.nil_append]
  refine hstmts.bind (he.map ?_)
  simp only [Following.step, Following.names, Core.namesAll]
  grind

theorem transcribes_scan_define (p : Pattern String) {v : Expr String} (s : Span)
    {stmts : List (Expr String)} {known : List String} (hp : p.binders ⊆ known)
    (hstmts : Transcribes known (fun ρ => scanAll (mapAll ρ stmts))
      (fun ρ => (following stmts).map ρ) (trailingInBlock stmts) (following stmts).names)
    (hv : ∀ {known' : List String}, known ⊆ known' → Transcribes known'
      (fun ρ => (v.map ρ).toCore) (fun ρ => v.core.map ρ) v.trailingDefinitions v.core.names) :
    Transcribes known (fun ρ => scanAll (mapAll ρ (define p v s :: stmts)))
      (fun ρ => (following (define p v s :: stmts)).map ρ) (trailingInBlock (define p v s :: stmts))
      (following (define p v s :: stmts)).names := by
  rw [trailingInBlock_cons, ← isNone_term?_following stmts,
    ← List.append_nil (define p v s).trailingDefinitions]
  simp only [mapAll, map, scanAll, isProgram_map]
  refine hstmts.bind ?_
  simp only [Following.term?_map, Following.joinable_map, Pattern.isAtomic_map]
  have hterm : ∀ rest, (following stmts).term? = some rest →
      rest.names ⊆ known ++ (following stmts).names := fun rest h =>
    List.subset_append_of_subset_right _ ((following stmts).names_term? h)
  refine (p.transcribes_restAfter s _ (List.subset_append_of_subset_left _ hp) hterm).bind ?_
  refine (hv (by grind)).bind ?_
  refine (p.transcribes_define v.isProgram (following stmts).joinable (by grind) (by grind)
    (by grind)).map ?_
  simp only [following, Following.define, Following.names, Core.namesAll, Option.map_some,
    Option.getD_some, List.nil_append]
  exact List.subset_append_right _ _

mutual

theorem transcribes_toCore : ∀ (e : Expr String) {known : List String}, e.names ⊆ known →
    Transcribes known (fun ρ => (e.map ρ).toCore) (fun ρ => e.core.map ρ) e.trailingDefinitions
      e.core.names
  | program p body s, known, h => by
    obtain ⟨hp, hbody⟩ := List.append_subset.mp h
    rw [trailingDefinitions, ← List.append_nil (trailingInBlock body)]
    simp only [core, Core.map, Core.map_bindAll, Following.map_getD_term?]
    refine (transcribes_scanAll body hbody).bind ?_
    refine (p.transcribes_synthesize (List.subset_append_of_subset_left _ hp)).bind ?_
    refine (p.transcribes_destructureParameter (by grind) (by simp)).map ?_
    have hbody := (following body).names_getD_term? .nil
    have hparts := Core.names_bindAll p.projections ((following body).term?.getD .nil)
    simp only [Core.names] at hbody ⊢
    grind
  | ifThen p t s, known, h => by
    obtain ⟨hp, ht⟩ := List.append_subset.mp h
    refine (transcribes_toCore p hp).bind ?_
    refine (transcribes_toCore t (List.subset_append_of_subset_left _ ht)).map ?_
    simp only [core, Core.names]
    grind
  | ifThenElse p t e s, known, h => by
    obtain ⟨hpt, he⟩ := List.append_subset.mp h
    obtain ⟨hp, ht⟩ := List.append_subset.mp hpt
    rw [trailingDefinitions, List.append_assoc]
    refine (transcribes_toCore p hp).bind ?_
    refine (transcribes_toCore t (List.subset_append_of_subset_left _ ht)).bind ?_
    refine (transcribes_toCore e (by grind)).map ?_
    simp only [core, Core.names]
    grind
  | block stmts s, known, h => by
    simp only [core, Following.map_getD_term?]
    refine (transcribes_scanAll stmts h).map ?_
    have hnames := (following stmts).names_getD_term? .nil
    simp only [Core.names] at hnames
    grind
  | define p v s, known, h => by
    obtain ⟨hp, hv⟩ := List.append_subset.mp h
    rw [trailingDefinitions, ← List.append_nil v.trailingDefinitions]
    simp only [map, toCore, isProgram_map]
    refine (p.transcribes_synthesize hp).bind ?_
    refine (transcribes_toCore v (List.subset_append_of_subset_left _ hv)).bind ?_
    exact p.transcribes_define v.isProgram false (by grind) (by grind) (by simp [Core.names])
  | withAddress t e s, known, h => by
    obtain ⟨ht, he⟩ := List.append_subset.mp h
    refine (transcribes_toCore t ht).bind ?_
    refine (transcribes_toCore e (List.subset_append_of_subset_left _ he)).map ?_
    simp only [core, Core.names]
    grind
  | tuple es s, known, h => (transcribes_toCores es h).map (List.subset_append_right _ _)
  | apply f args s, known, h => by
    obtain ⟨hf, hargs⟩ := List.append_subset.mp h
    refine (transcribes_toCore f hf).bind ?_
    refine (transcribes_toCores args (List.subset_append_of_subset_left _ hargs)).map ?_
    simp only [core, Core.names]
    grind
  | literal l s, known, h => transcribes_pure _ h
  | var n s, known, h => transcribes_pure _ h
  | this s, known, _ => transcribes_pure _ (List.nil_subset _)
  | splice e s, known, h => (transcribes_toCore e h).map (List.subset_append_right _ _)
  | unquote e s, known, h => (transcribes_toCore e h).map (List.subset_append_right _ _)

theorem transcribes_toCores : ∀ (es : List (Expr String)) {known : List String},
    namesAll es ⊆ known → Transcribes known (fun ρ => toCores (mapAll ρ es))
      (fun ρ => Core.mapAll ρ (coreAll es)) (trailingInAll es) (Core.namesAll (coreAll es))
  | [], known, _ => transcribes_pure _ (List.nil_subset _)
  | e :: es, known, h => by
    obtain ⟨he, hes⟩ := List.append_subset.mp h
    refine (transcribes_toCore e he).bind ?_
    refine (transcribes_toCores es (List.subset_append_of_subset_left _ hes)).map ?_
    simp only [coreAll, Core.namesAll]
    grind

theorem transcribes_scanAll : ∀ (stmts : List (Expr String)) {known : List String},
    namesAll stmts ⊆ known → Transcribes known (fun ρ => scanAll (mapAll ρ stmts))
      (fun ρ => (following stmts).map ρ) (trailingInBlock stmts) (following stmts).names
  | [], known, _ => transcribes_pure _ (List.nil_subset _)
  | e :: stmts, known, h => by
    obtain ⟨he, hstmts⟩ := List.append_subset.mp h
    have hrest := transcribes_scanAll stmts hstmts
    cases e with
    | define p v s =>
      obtain ⟨hp, hv⟩ := List.append_subset.mp he
      exact transcribes_scan_define p s hp hrest fun h =>
        transcribes_toCore v (List.Subset.trans hv h)
    | _ =>
      exact transcribes_scan_expression rfl hrest
        (transcribes_toCore _ (List.subset_append_of_subset_left _ he))

end

-- the name of the second pattern is taken in before that of the first one
example :
    let s : Span := ⟨0, 0⟩
    let e := block [define (.tuple [.name "a", .name "b"]) (.var "x" s) s,
      define (.tuple [.name "c", .name "d"]) (.var "y" s) s, .var "z" s] s
    let t := Interner.blank.internAll e.names
    ((e.map t.nameOf).toCore.run ⟨t, []⟩).2.interner.texts.toList =
      ["a", "b", "x", "c", "d", "y", "z", "[c|d]", "[a|b]"] := by
  cbv

end Expr

end TraceFront
