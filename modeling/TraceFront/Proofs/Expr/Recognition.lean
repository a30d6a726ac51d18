import TraceFront.Expr.OfDatum

/-!
# What recognition accepts

Recognition goes from datums to patterns and expressions and stops at the first fault.  Here its
successful steps are listed once, so that later proofs go through the list and not through the
function.

* `exists_of_mem_mapM`        a list is done item by item: each value of it comes from an item,
* `exists_of_mapM_error`      and so does its error;
* `Allowed`                   the names that recognition lets through;
* `Pattern.Spelled`           a datum and the pattern that it is recognized as, one level deep;
* `Expr.Spelled`              the same for expressions;
* `Expr.spelled_of_ofDatum`   a datum that is recognized is in the list, and `ofDatum_of_spelled` the
                              other way round.
-/

namespace TraceFront

theorem bind_eq_ok {ε α β : Type} {x : Except ε α} {f : α → Except ε β} {b : β}
    (h : (x >>= f) = .ok b) : ∃ a, x = .ok a ∧ f a = .ok b := by
  cases x with
  | error e => cases h
  | ok a => exact ⟨a, rfl, h⟩

theorem map_eq_ok {ε α β : Type} {x : Except ε α} {f : α → β} {b : β}
    (h : x.map f = .ok b) : ∃ a, x = .ok a ∧ f a = b := by
  cases x with
  | error e => cases h
  | ok a => exact ⟨a, rfl, Except.ok.inj h⟩

theorem bind_eq_error {ε α β : Type} {x : Except ε α} {f : α → Except ε β} {e : ε}
    (h : (x >>= f) = .error e) : x = .error e ∨ ∃ a, x = .ok a ∧ f a = .error e := by
  cases x with
  | error e' =>
    cases h
    exact .inl rfl
  | ok a => exact .inr ⟨a, rfl, h⟩

theorem map_eq_error {ε α β : Type} {x : Except ε α} {f : α → β} {e : ε}
    (h : x.map f = .error e) : x = .error e := by
  cases x with
  | error e' =>
    cases h
    rfl
  | ok a => cases h

section
variable {ε α β : Type} {f : α → Except ε β} {as : List α}

/-- each value of a list without errors comes from an item -/
theorem exists_of_mem_mapM {bs : List β} (h : as.mapM f = .ok bs) {b : β} (hb : b ∈ bs) :
    ∃ a ∈ as, f a = .ok b := by
  induction as generalizing bs with
  | nil => cases h; cases hb
  | cons a as ih =>
    rw [List.mapM_cons] at h
    obtain ⟨c, hc, h⟩ := bind_eq_ok h
    obtain ⟨cs, hcs, h⟩ := bind_eq_ok h
    cases h
    rcases List.mem_cons.mp hb with rfl | hb
    · exact ⟨a, List.mem_cons_self, hc⟩
    · obtain ⟨a', ha', hb⟩ := ih hcs hb
      exact ⟨a', List.mem_cons_of_mem _ ha', hb⟩

theorem length_of_mapM {bs : List β} (h : as.mapM f = .ok bs) : bs.length = as.length := by
  induction as generalizing bs with
  | nil => cases h; rfl
  | cons a as ih =>
    rw [List.mapM_cons] at h
    obtain ⟨c, _, h⟩ := bind_eq_ok h
    obtain ⟨cs, hcs, h⟩ := bind_eq_ok h
    cases h
    rw [List.length_cons, List.length_cons, ih hcs]

/-- the error of a list is that of an item -/
theorem exists_of_mapM_error {e : ε} (h : as.mapM f = .error e) : ∃ a ∈ as, f a = .error e := by
  induction as with
  | nil => cases h
  | cons a as ih =>
    rw [List.mapM_cons] at h
    rcases bind_eq_error h with h | ⟨c, _, h⟩
    · exact ⟨a, List.mem_cons_self, h⟩
    rcases bind_eq_error h with h | ⟨cs, _, h⟩
    · obtain ⟨a', ha', h⟩ := ih h
      exact ⟨a', List.mem_cons_of_mem _ ha', h⟩
    · cases h

end

/-! ## names -/

/-- a name that may stand for a value and be bound by a pattern -/
structure Allowed (n : String) : Prop where
  not_wildcard : n ≠ Vocabulary.wildcard
  not_self : n ≠ Vocabulary.selfReference
  not_reserved : Vocabulary.isReserved n = false
  no_separator : Vocabulary.separator ∉ n.toList

theorem allowed_of_reference {n m : String} {s : Span} (hn : n ≠ Vocabulary.selfReference)
    (h : reference n s = .ok m) : m = n ∧ Allowed n := by
  rw [reference_text] at h
  split at h
  · cases h
  split at h
  · cases h
  split at h
  · cases h
  rename_i hw hr hs
  cases h
  exact ⟨rfl, hw, hn, by simpa using hr, by simpa using hs⟩

theorem allowed_of_newName {n m : String} {s : Span} (h : newName n s = .ok m) :
    m = n ∧ Allowed n := by
  rw [newName_text] at h
  split at h
  · cases h
  · rename_i hn
    exact allowed_of_reference hn h

theorem reference_of_allowed {n : String} {s : Span} (h : Allowed n) : reference n s = .ok n := by
  have hreserved : ¬Vocabulary.isReserved n = true := by rw [h.not_reserved]; exact Bool.false_ne_true
  have hseparator : ¬n.toList.contains Vocabulary.separator = true := by simpa using h.no_separator
  rw [reference_text, if_neg h.not_wildcard, if_neg hreserved, if_neg hseparator]

/-! ## patterns -/

namespace Pattern

/-- a datum and the pattern that it is recognized as -/
inductive Spelled : Datum String → Pattern String → Prop
  | wildcard (s : Span) : Spelled (.symbol Vocabulary.wildcard s) .wildcard
  | name {n : String} (s : Span) : Allowed n → Spelled (.symbol n s) (.name n)
  | vector {ds : List (Datum String)} {ps : List (Pattern String)} (s : Span) :
      ofDatums ds = .ok ps → Spelled (.vector ds s) (.tuple ps)
  | tuple {head : Datum String} {ds : List (Datum String)} {ps : List (Pattern String)} (s : Span) :
      head.form? = some .tuple → ofDatums ds = .ok ps → Spelled (.list (head :: ds) s) (.tuple ps)

theorem spelled_of_ofDatum {d : Datum String} {p : Pattern String} (h : ofDatum d = .ok p) :
    Spelled d p := by
  cases d with
  | literal l s => cases h
  | symbol n s =>
    rw [ofDatum_symbol] at h
    by_cases hn : n = Vocabulary.wildcard
    · rw [if_pos hn] at h
      cases h
      rw [hn]
      exact .wildcard s
    · rw [if_neg hn] at h
      obtain ⟨m, hm, rfl⟩ := map_eq_ok h
      obtain ⟨rfl, ha⟩ := allowed_of_newName hm
      exact .name s ha
  | vector ds s =>
    rw [ofDatum] at h
    obtain ⟨ps, hps, rfl⟩ := map_eq_ok h
    exact .vector s hps
  | list ds s =>
    cases ds with
    | nil => cases h
    | cons head ds =>
      rw [ofDatum] at h
      by_cases ht : head.form? = some .tuple
      · rw [if_pos ht] at h
        obtain ⟨ps, hps, rfl⟩ := map_eq_ok h
        exact .tuple s ht hps
      · rw [if_neg ht] at h
        cases h

theorem ofDatums_eq_mapM (ds : List (Datum String)) :
    (ofDatums ds : Except FormError (List (Pattern String))) = ds.mapM ofDatum := by
  induction ds with
  | nil => rfl
  | cons d ds ih => rw [ofDatums, List.mapM_cons, ih]

theorem exists_of_mem_ofDatums {ds : List (Datum String)} {ps : List (Pattern String)}
    (h : ofDatums ds = .ok ps) {p : Pattern String} (hp : p ∈ ps) : ∃ d ∈ ds, ofDatum d = .ok p :=
  exists_of_mem_mapM ((ofDatums_eq_mapM ds).symm.trans h) hp

end Pattern

/-! ## expressions -/

namespace Expr

/-- a datum and the expression that it is recognized as -/
inductive Spelled : Datum String → Expr String → Prop
  | literal (l : Literal String) (s : Span) : Spelled (.literal l s) (.literal l s)
  | self (s : Span) : Spelled (.symbol Vocabulary.selfReference s) (.this s)
  | var {n : String} (s : Span) : Allowed n → Spelled (.symbol n s) (.var n s)
  | apply {head : Datum String} {ds : List (Datum String)} {f : Expr String}
      {args : List (Expr String)} (s : Span) :
      head.form? = none → ofDatum head = .ok f → ofDatums ds = .ok args →
      Spelled (.list (head :: ds) s) (.apply f args s)
  | program {head d : Datum String} {ds : List (Datum String)} {p : Pattern String}
      {body : List (Expr String)} (s : Span) :
      head.form? = some .program → Pattern.ofDatum d = .ok p → ofDatums ds = .ok body →
      Spelled (.list (head :: d :: ds) s) (.program p body s)
  | ifThen {head d₁ d₂ : Datum String} {p t : Expr String} (s : Span) :
      head.form? = some .conditional → ofDatum d₁ = .ok p → ofDatum d₂ = .ok t →
      Spelled (.list [head, d₁, d₂] s) (.ifThen p t s)
  | ifThenElse {head d₁ d₂ d₃ : Datum String} {p t e : Expr String} (s : Span) :
      head.form? = some .conditional → ofDatum d₁ = .ok p → ofDatum d₂ = .ok t →
      ofDatum d₃ = .ok e → Spelled (.list [head, d₁, d₂, d₃] s) (.ifThenElse p t e s)
  | block {head : Datum String} {ds : List (Datum String)} {stmts : List (Expr String)} (s : Span) :
      head.form? = some .block → ofDatums ds = .ok stmts →
      Spelled (.list (head :: ds) s) (.block stmts s)
  | define {head d₁ d₂ : Datum String} {p : Pattern String} {v : Expr String} (s : Span) :
      head.form? = some .define → Pattern.ofDatum d₁ = .ok p → ofDatum d₂ = .ok v →
      Spelled (.list [head, d₁, d₂] s) (.define p v s)
  | withAddress {head d₁ d₂ : Datum String} {t e : Expr String} (s : Span) :
      head.form? = some .withAddress → ofDatum d₁ = .ok t → ofDatum d₂ = .ok e →
      Spelled (.list [head, d₁, d₂] s) (.withAddress t e s)
  | tuple {head : Datum String} {ds : List (Datum String)} {es : List (Expr String)} (s : Span) :
      head.form? = some .tuple → ofDatums ds = .ok es →
      Spelled (.list (head :: ds) s) (.tuple es s)
  | this {head : Datum String} (s : Span) :
      head.form? = some .this → Spelled (.list [head] s) (.this s)
  | splice {head d : Datum String} {e : Expr String} (s : Span) :
      head.form? = some .splice → ofDatum d = .ok e → Spelled (.list [head, d] s) (.splice e s)
  | unquote {head d : Datum String} {e : Expr String} (s : Span) :
      head.form? = some .unquote → ofDatum d = .ok e → Spelled (.list [head, d] s) (.unquote e s)

theorem spelled_of_list {head : Datum String} {ds : List (Datum String)} {s : Span}
    {e : Expr String}
    (h : ofDatum (.list (head :: ds) s) = .ok e) : Spelled (.list (head :: ds) s) e := by
  unfold ofDatum at h
  cases hf : head.form? with
  | none =>
    simp only [hf] at h
    obtain ⟨f, hfun, h⟩ := bind_eq_ok h
    obtain ⟨args, hargs, h⟩ := bind_eq_ok h
    cases h
    exact .apply s hf hfun hargs
  | some form =>
    cases form with
    | program =>
      simp only [hf] at h
      cases ds with
      | nil => cases h
      | cons d ds =>
        obtain ⟨p, hp, h⟩ := bind_eq_ok h
        obtain ⟨body, hbody, h⟩ := bind_eq_ok h
        cases h
        exact .program s hf hp hbody
    | conditional =>
      simp only [hf] at h
      rcases ds with _ | ⟨d₁, _ | ⟨d₂, _ | ⟨d₃, _ | ⟨d₄, ds⟩⟩⟩⟩
      case cons.cons.nil =>
        obtain ⟨p, hp, h⟩ := bind_eq_ok h
        obtain ⟨t, ht, h⟩ := bind_eq_ok h
        cases h
        exact .ifThen s hf hp ht
      case cons.cons.cons.nil =>
        obtain ⟨p, hp, h⟩ := bind_eq_ok h
        obtain ⟨t, ht, h⟩ := bind_eq_ok h
        obtain ⟨e, he, h⟩ := bind_eq_ok h
        cases h
        exact .ifThenElse s hf hp ht he
      all_goals cases h
    | block =>
      simp only [hf] at h
      obtain ⟨stmts, hstmts, h⟩ := bind_eq_ok h
      cases h
      exact .block s hf hstmts
    | define =>
      simp only [hf] at h
      rcases ds with _ | ⟨d₁, _ | ⟨d₂, _ | ⟨d₃, ds⟩⟩⟩
      case cons.cons.nil =>
        obtain ⟨p, hp, h⟩ := bind_eq_ok h
        obtain ⟨v, hv, h⟩ := bind_eq_ok h
        cases h
        exact .define s hf hp hv
      all_goals cases h
    | withAddress =>
      simp only [hf] at h
      rcases ds with _ | ⟨d₁, _ | ⟨d₂, _ | ⟨d₃, ds⟩⟩⟩
      case cons.cons.nil =>
        obtain ⟨t, ht, h⟩ := bind_eq_ok h
        obtain ⟨e, he, h⟩ := bind_eq_ok h
        cases h
        exact .withAddress s hf ht he
      all_goals cases h
    | tuple =>
      simp only [hf] at h
      obtain ⟨es, hes, h⟩ := bind_eq_ok h
      cases h
      exact .tuple s hf hes
    | this =>
      simp only [hf] at h
      cases ds with
      | nil =>
        cases h
        exact .this s hf
      | cons d ds => cases h
    | splice =>
      simp only [hf] at h
      rcases ds with _ | ⟨d, _ | ⟨d', ds⟩⟩
      case cons.nil =>
        obtain ⟨e, he, h⟩ := bind_eq_ok h
        cases h
        exact .splice s hf he
      all_goals cases h
    | unquote =>
      simp only [hf] at h
      rcases ds with _ | ⟨d, _ | ⟨d', ds⟩⟩
      case cons.nil =>
        obtain ⟨e, he, h⟩ := bind_eq_ok h
        cases h
        exact .unquote s hf he
      all_goals cases h

/-- a datum that is recognized as an expression is in the list -/
theorem spelled_of_ofDatum {d : Datum String} {e : Expr String} (h : ofDatum d = .ok e) :
    Spelled d e := by
  cases d with
  | literal l s =>
    cases h
    exact .literal l s
  | symbol n s =>
    rw [ofDatum_symbol] at h
    by_cases hn : n = Vocabulary.selfReference
    · rw [if_pos hn] at h
      cases h
      rw [hn]
      exact .self s
    · rw [if_neg hn] at h
      obtain ⟨m, hm, rfl⟩ := map_eq_ok h
      obtain ⟨rfl, ha⟩ := allowed_of_reference hn hm
      exact .var s ha
  | vector ds s => cases h
  | list ds s =>
    cases ds with
    | nil => cases h
    | cons head ds => exact spelled_of_list h

/-- and a datum that is in the list is recognized -/
theorem ofDatum_of_spelled {d : Datum String} {e : Expr String} (h : Spelled d e) :
    ofDatum d = .ok e := by
  cases h with
  | literal l s => rfl
  | self s => rfl
  | var s ha => rw [ofDatum_symbol, if_neg ha.not_self, reference_of_allowed ha]; rfl
  | apply s hf hhead hds =>
    unfold ofDatum
    simp only [hf]
    rw [hhead, hds]
    rfl
  | program s hf hp hbody =>
    unfold ofDatum
    simp only [hf]
    rw [hp, hbody]
    rfl
  | ifThen s hf hp ht =>
    unfold ofDatum
    simp only [hf]
    rw [hp, ht]
    rfl
  | ifThenElse s hf hp ht he =>
    unfold ofDatum
    simp only [hf]
    rw [hp, ht, he]
    rfl
  | block s hf hstmts =>
    unfold ofDatum
    simp only [hf]
    rw [hstmts]
    rfl
  | define s hf hp hv =>
    unfold ofDatum
    simp only [hf]
    rw [hp, hv]
    rfl
  | withAddress s hf ht he =>
    unfold ofDatum
    simp only [hf]
    rw [ht, he]
    rfl
  | tuple s hf hes =>
    unfold ofDatum
    simp only [hf]
    rw [hes]
    rfl
  | this s hf =>
    unfold ofDatum
    simp only [hf]
  | splice s hf he =>
    unfold ofDatum
    simp only [hf]
    rw [he]
    rfl
  | unquote s hf he =>
    unfold ofDatum
    simp only [hf]
    rw [he]
    rfl

theorem ofDatums_eq_mapM (ds : List (Datum String)) :
    (ofDatums ds : Except FormError (List (Expr String))) = ds.mapM ofDatum := by
  induction ds with
  | nil => rfl
  | cons d ds ih => rw [ofDatums, List.mapM_cons, ih]

theorem exists_of_mem_ofDatums {ds : List (Datum String)} {es : List (Expr String)}
    (h : ofDatums ds = .ok es) {e : Expr String} (he : e ∈ es) : ∃ d ∈ ds, ofDatum d = .ok e :=
  exists_of_mem_mapM ((ofDatums_eq_mapM ds).symm.trans h) he

end Expr

end TraceFront
