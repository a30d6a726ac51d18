import Mathlib.Data.Finset.Card
import TraceFront.Proofs.Session.Interning

/-!
# Runs of an interner

* `Interner.Call`, `Interner.Answer`, `Interner.call`   what can be asked of an interner;
* `Interner.run`             calls one after the other, with a log of the answers;
* `Interner.handed`          the texts that a run takes in, with the numbers that it gives them;
* `Interner.Numbers`         the interner numbers certain texts and no others;
* `Numbers.call`, `Numbers.run`   a call adds the text that it takes in, and so does a run;
* `run_numbers`              what any run on a new interner leaves behind.

Nothing here needs a bound on the number of texts.  While there is room, the call that may fail does
not fail, and is the other one.
-/

namespace TraceFront

namespace Interner

/-! ## calls -/

/-- what can be asked of an interner -/
inductive Call where
  | intern (text : String)
  | tryIntern (text : String)
  | find (text : String)
  | lookUp (name : Name)

/-- what the interner answers -/
inductive Answer where
  | interned (name : Except InternError Name)
  | found (name : Option Name)
  | text (text : String)

/-- one call -/
def call (t : Interner) : Call → Answer × Interner
  | .intern s => (.interned (.ok (t.intern s).1), (t.intern s).2)
  | .tryIntern s =>
    match t.intern? s with
    | .ok (n, t') => (.interned (.ok n), t')
    | .error e => (.interned (.error e), t)
  | .find s => (.found (t.get? s), t)
  | .lookUp n => (.text (t.textOf n), t)

/-- calls one after the other, with their answers -/
def run (t : Interner) : List Call → List (Call × Answer) × Interner
  | [] => ([], t)
  | c :: cs => ((c, (t.call c).1) :: ((t.call c).2.run cs).1, ((t.call c).2.run cs).2)

/-- the text that a call has taken in, with its number -/
def handed? : Call × Answer → Option (String × Name)
  | (.intern s, .interned (.ok n)) => some (s, n)
  | (.tryIntern s, .interned (.ok n)) => some (s, n)
  | _ => none

/-- the texts that have been taken in, with their numbers -/
def handed (log : List (Call × Answer)) : List (String × Name) := log.filterMap handed?

theorem handed_cons (e : Call × Answer) (log : List (Call × Answer)) :
    handed (e :: log) = handed [e] ++ handed log := by
  rw [handed, handed, handed, ← List.filterMap_append, List.singleton_append]

/-- a call takes in a text and hands out its number, or changes nothing -/
theorem call_cases (t : Interner) (c : Call) :
    (∃ s, (t.call c).2 = (t.intern s).2 ∧ handed? (c, (t.call c).1) = some (s, (t.intern s).1)) ∨
      ((t.call c).2 = t ∧ handed? (c, (t.call c).1) = none) := by
  cases c with
  | intern s => exact .inl ⟨s, rfl, rfl⟩
  | find s => exact .inr ⟨rfl, rfl⟩
  | lookUp n => exact .inr ⟨rfl, rfl⟩
  | tryIntern s =>
    by_cases hfull : ((t.get? s).isNone && InternError.maxRaw < t.texts.size) = true
    · have herror : t.intern? s = .error (.overflow t.texts.size) := if_pos hfull
      rw [call, herror]
      exact .inr ⟨rfl, rfl⟩
    · have hok : t.intern? s = .ok (t.intern s) := if_neg hfull
      rw [call, hok]
      exact .inl ⟨s, rfl, rfl⟩

theorem extends_call (t : Interner) (c : Call) : t.Extends (t.call c).2 := by
  rcases t.call_cases c with ⟨s, hstate, _⟩ | ⟨hstate, _⟩
  · rw [hstate]
    exact t.extends_intern s
  · rw [hstate]
    exact .refl t

theorem extends_run (t : Interner) (cs : List Call) : t.Extends (t.run cs).2 := by
  induction cs generalizing t with
  | nil => exact .refl t
  | cons c cs ih => exact (t.extends_call c).trans (ih _)

/-! ## numbers and texts -/

theorem get?_eq_some_iff {t : Interner} {s : String} {n : Name} :
    t.get? s = some n ↔ t.texts[n.raw]? = some s := by
  rw [← t.agree, get?, Option.map_eq_some_iff]
  constructor
  · rintro ⟨i, hi, rfl⟩
    exact hi
  · intro h
    exact ⟨n.raw, h, rfl⟩

/-- a text that has a number keeps it, and nothing changes -/
theorem intern_of_texts {t : Interner} {s : String} {n : Name} (h : t.texts[n.raw]? = some s) :
    t.intern s = (n, t) := by
  have hsame : (t.intern s).2 = t := intern_of_knows ⟨n.raw, h⟩
  have hstays : (t.intern s).2.Extends t := by
    rw [hsame]
    exact .refl t
  rw [intern_eq hstays, hsame, nameOf_eq h]

theorem intern?_of_room {t : Interner} (hroom : t.length ≤ InternError.maxRaw) (s : String) :
    t.intern? s = .ok (t.intern s) := by
  refine if_neg ?_
  rw [Bool.and_eq_true, decide_eq_true_eq]
  exact fun hfull => absurd hfull.2 (Nat.not_lt.mpr hroom)

theorem textOf_of_length_le {t : Interner} {n : Name} (h : t.length ≤ n.raw) : t.textOf n = "" := by
  rw [textOf, Array.getElem?_eq_none h]
  rfl

/-! ## the texts of an interner -/

/-- the interner numbers these texts and no others -/
def Numbers (t : Interner) (known : List String) : Prop := ∀ s, t.Knows s ↔ s ∈ known

theorem knows_intern_iff {t : Interner} {s u : String} :
    (t.intern s).2.Knows u ↔ t.Knows u ∨ u = s := by
  constructor
  · rintro ⟨i, hi⟩
    rcases t.intern_cases s with ⟨_, _, h⟩ | ⟨_, _, htexts⟩
    · rw [h] at hi
      exact .inl ⟨i, hi⟩
    · rw [htexts, Array.getElem?_push] at hi
      split at hi
      · exact .inr (Option.some.inj hi).symm
      · exact .inl ⟨i, hi⟩
  · rintro (hu | rfl)
    · exact hu.mono (t.extends_intern s)
    · exact t.knows_intern u

section
variable {t : Interner} {known : List String} (h : t.Numbers known)
include h

theorem Numbers.intern (s : String) : (t.intern s).2.Numbers (known ++ [s]) := by
  intro u
  rw [knows_intern_iff, h u, List.mem_append, List.mem_singleton]

theorem Numbers.internAll (ss : List String) : (t.internAll ss).Numbers (known ++ ss) := by
  induction ss generalizing t known with
  | nil =>
    rw [List.append_nil]
    exact h
  | cons s ss ih =>
    rw [List.append_cons]
    exact ih (h.intern s)

/-- a call adds the text that it takes in -/
theorem Numbers.call (c : Call) :
    (t.call c).2.Numbers (known ++ (handed [(c, (t.call c).1)]).map (·.1)) := by
  rcases t.call_cases c with ⟨s, hstate, hhanded⟩ | ⟨hstate, hhanded⟩
  · rw [hstate, handed, List.filterMap_cons_some hhanded]
    exact h.intern s
  · rw [hstate, handed, List.filterMap_cons_none hhanded, List.filterMap_nil, List.map_nil,
      List.append_nil]
    exact h

/-- a run adds the texts that it takes in -/
theorem Numbers.run (cs : List Call) :
    (t.run cs).2.Numbers (known ++ (handed (t.run cs).1).map (·.1)) := by
  induction cs generalizing t known with
  | nil =>
    rw [Interner.run, handed, List.filterMap_nil, List.map_nil, List.append_nil]
    exact h
  | cons c cs ih =>
    rw [Interner.run, handed_cons, List.map_append, ← List.append_assoc]
    exact ih (h.call c)

/-- no text has two numbers, so there are as many numbers as texts -/
theorem Numbers.length_eq : t.length = known.toFinset.card := by
  have hnodup : t.texts.toList.Nodup := by
    rw [List.nodup_iff_getElem?_ne_getElem?]
    intro i j hlt hj heq
    rw [Array.getElem?_toList, Array.getElem?_toList] at heq
    have hi : t.texts[j]? = some t.texts[j] := Array.getElem?_eq_getElem hj
    have hindex := (t.agree _ i).mpr (heq.trans hi)
    rw [(t.agree _ j).mpr hi] at hindex
    exact absurd (Option.some.inj hindex) (Nat.ne_of_gt hlt)
  have hsame : t.texts.toList.toFinset = known.toFinset := by
    ext s
    rw [List.mem_toFinset, List.mem_toFinset, ← h s, Array.mem_toList_iff,
      Array.mem_iff_getElem?]
    rfl
  rw [← hsame, List.toFinset_card_of_nodup hnodup]
  rfl

end

theorem numbers_empty : empty.Numbers ("" :: Vocabulary.words) := by
  have hblank : blank.Numbers [] := by
    intro s
    simp [Knows, blank]
  exact hblank.internAll _

/-- a number that a run hands out for a text is the text's at the end -/
theorem texts_of_handed {t : Interner} {cs : List Call} {s : String} {n : Name} (h :
    (s, n) ∈ handed (t.run cs).1) : (t.run cs).2.texts[n.raw]? = some s := by
  induction cs generalizing t with
  | nil => cases h
  | cons c cs ih =>
    rw [run] at h ⊢
    rw [handed_cons, List.mem_append] at h
    rcases t.call_cases c with ⟨u, hstate, hhanded⟩ | ⟨hstate, hhanded⟩
    · rw [handed, List.filterMap_cons_some hhanded] at h
      rcases h with h | h
      · -- the number comes from this call, and later calls leave it alone
        obtain ⟨rfl, rfl⟩ := Prod.mk.inj (List.mem_singleton.mp h)
        refine extends_run _ cs _ _ ?_
        rw [hstate]
        exact texts_intern t s
      · exact ih h
    · rw [handed, List.filterMap_cons_none hhanded] at h
      rcases h with h | h
      · cases h
      · rw [hstate] at h ⊢
        exact ih h

/-- **What a run leaves behind.**  After any calls on a new interner, index and texts say the same.
The texts that have a number are the empty text, the words of the forms and those that the calls took
in, each counted once.  A number that was handed out for a text is the one that is found for it.  It
leads back to the text, taking the text in again gives the same number and changes nothing, and all this
stays so through more calls.  Texts have equal numbers only if they are equal.  Finding and looking up
change nothing, and a number that is not taken has the empty text.  While there is room, no call
fails. -/
theorem run_numbers (calls : List Call) :
    let log := (empty.run calls).1
    let t := (empty.run calls).2
    let known := "" :: Vocabulary.words ++ (handed log).map (·.1)
    (∀ (s : String) (i : Nat), t.index[s]? = some i ↔ t.texts[i]? = some s) ∧
    (∀ s, s ∈ known ↔ (t.get? s).isSome) ∧ t.length = known.toFinset.card ∧
    (∀ s n, (s, n) ∈ handed log → t.get? s = some n) ∧
    (∀ s n, t.get? s = some n → t.intern s = (n, t) ∧ t.textOf n = s) ∧
    (∀ s n s' n', t.get? s = some n → t.get? s' = some n' → (n = n' ↔ s = s')) ∧
    (∀ later s n, t.get? s = some n →
      (t.run later).2.get? s = some n ∧ (t.run later).2.textOf n = s) ∧
    (∀ s, (t.call (.find s)).2 = t) ∧ (∀ n, (t.call (.lookUp n)).2 = t) ∧
    (∀ n : Name, t.length ≤ n.raw → t.textOf n = "") ∧
    (t.length ≤ InternError.maxRaw → ∀ s, t.intern? s = .ok (t.intern s)) := by
  intro log t known
  have hnumbers : t.Numbers known := numbers_empty.run calls
  have hget : ∀ {s n}, t.get? s = some n ↔ t.texts[n.raw]? = some s := get?_eq_some_iff
  refine ⟨t.agree, fun s => ?_, hnumbers.length_eq, ?_, ?_, ?_, ?_, fun s => rfl, fun n => rfl,
    fun n hn => textOf_of_length_le hn, intern?_of_room⟩
  · rw [← hnumbers s, Option.isSome_iff_exists]
    exact ⟨fun ⟨i, hi⟩ => ⟨⟨i⟩, hget.mpr hi⟩, fun ⟨n, hn⟩ => ⟨n.raw, hget.mp hn⟩⟩
  · intro s n h
    exact hget.mpr (texts_of_handed h)
  · intro s n h
    exact ⟨intern_of_texts (hget.mp h), textOf_of_texts (hget.mp h)⟩
  · intro s n s' n' h h'
    constructor
    · rintro rfl
      exact Option.some.inj ((hget.mp h).symm.trans (hget.mp h'))
    · rintro rfl
      exact Option.some.inj (h.symm.trans h')
  · intro later s n h
    have hlater := t.extends_run later _ _ (hget.mp h)
    exact ⟨get?_eq_some_iff.mpr hlater, textOf_of_texts hlater⟩

/-- a text that is taken in twice has one number, and the word of a form has the number that it had -/
theorem run_numbers_of_repeated_text :
    let calls : List Call := [.find "x", .intern "x", .tryIntern "y", .tryIntern "x", .intern "if"]
    handed (empty.run calls).1 = [("x", ⟨10⟩), ("y", ⟨11⟩), ("x", ⟨10⟩), ("if", ⟨2⟩)] ∧
      (empty.run calls).2.get? "x" = some ⟨10⟩ ∧ (empty.run calls).2.length = 12 := by
  intro calls
  have hhanded : handed (empty.run calls).1
      = [("x", ⟨10⟩), ("y", ⟨11⟩), ("x", ⟨10⟩), ("if", ⟨2⟩)] := by
    simp [calls, run, call, handed, handed?, List.filterMap, intern?, get?, Interner.intern,
      InternTable.intern, empty, internAll, blank, Vocabulary.words, SpecialForm.all,
      SpecialForm.word, InternError.maxRaw, Std.HashMap.getElem_insert]
  obtain ⟨_, _, hlength, hfound, _⟩ := run_numbers calls
  refine ⟨hhanded, hfound "x" ⟨10⟩ ?_, ?_⟩
  · rw [hhanded]
    exact List.mem_cons_self
  · rw [hlength, hhanded]
    rfl

end Interner

end TraceFront
