import TraceFront.Interner

/-!
# Handles stand for texts

* `Interner.Extends`          every number keeps its text;
* `Interner.Knows`            the text has a number;
* `Interner.internAll_keeps`  what one text taken in keeps, any number of them keep;
* `textOf_nameOf`             the handle of a text leads back to the text, also later;
* `nameOf_eq_iff`             handles are equal exactly if their texts are;
* `intern_eq`                 the handle that a text gets is the one that it has ever after.
-/

namespace TraceFront

namespace Interner

/-- every number keeps its text -/
def Extends (t t' : Interner) : Prop :=
  ∀ (i : Nat) (s : String), t.texts[i]? = some s → t'.texts[i]? = some s

/-- the text has a number -/
def Knows (t : Interner) (s : String) : Prop := ∃ i : Nat, t.texts[i]? = some s

theorem Extends.refl (t : Interner) : t.Extends t := fun _ _ h => h

theorem Extends.trans {t t' t'' : Interner} (h : t.Extends t') (h' : t'.Extends t'') :
    t.Extends t'' := fun i s hs => h' i s (h i s hs)

theorem Knows.mono {t t' : Interner} {s : String} (h : t.Knows s) (he : t.Extends t') :
    t'.Knows s := by
  obtain ⟨i, hi⟩ := h
  exact ⟨i, he i s hi⟩

/-! ## one text -/

/-- a text is there already, or it is new and gets the next number -/
theorem intern_cases (t : Interner) (s : String) :
    (∃ i, t.texts[i]? = some s ∧ t.intern s = (⟨i⟩, t)) ∨
    (¬t.Knows s ∧ (t.intern s).1 = ⟨t.texts.size⟩ ∧ (t.intern s).2.texts = t.texts.push s) := by
  rcases t.toInternTable.intern_cases s with ⟨i, hi, h⟩ | ⟨hnew, h⟩
  · refine .inl ⟨i, (t.agree s i).mp hi, ?_⟩
    unfold intern
    simp only [h]
  · refine .inr ⟨?_, congrArg Prod.fst h, congrArg (·.2.texts) h⟩
    rintro ⟨i, hi⟩
    rw [(t.agree s i).mpr hi] at hnew
    cases hnew

theorem getElem?_push_of_eq_some {texts : Array String} {i : Nat} {u : String} (s : String)
    (h : texts[i]? = some u) : (texts.push s)[i]? = some u := by
  obtain ⟨hi, _⟩ := Array.getElem?_eq_some_iff.mp h
  rw [Array.getElem?_push_lt (by omega)]
  exact h ▸ (Array.getElem?_eq_getElem hi).symm

theorem extends_intern (t : Interner) (s : String) : t.Extends (t.intern s).2 := by
  rcases t.intern_cases s with ⟨i, _, h⟩ | ⟨_, _, htexts⟩
  · rw [h]
    exact .refl t
  · intro i u hu
    rw [htexts]
    exact getElem?_push_of_eq_some s hu

theorem texts_intern (t : Interner) (s : String) :
    (t.intern s).2.texts[(t.intern s).1.raw]? = some s := by
  rcases t.intern_cases s with ⟨i, hi, h⟩ | ⟨_, hname, htexts⟩
  · rw [h]
    exact hi
  · rw [hname, htexts]
    exact Array.getElem?_push_size

theorem knows_intern (t : Interner) (s : String) : (t.intern s).2.Knows s := ⟨_, t.texts_intern s⟩

theorem intern_of_knows {t : Interner} {s : String} (h : t.Knows s) : (t.intern s).2 = t := by
  rcases t.intern_cases s with ⟨j, _, hj⟩ | ⟨hnew, _⟩
  · rw [hj]
  · exact absurd h hnew

/-! ## any number of texts -/

theorem internAll_cons (t : Interner) (s : String) (ss : List String) :
    t.internAll (s :: ss) = (t.intern s).2.internAll ss := rfl

theorem internAll_append (t : Interner) (ss ss' : List String) :
    t.internAll (ss ++ ss') = (t.internAll ss).internAll ss' := List.foldl_append

/-- what one text taken in keeps, any number of them keep -/
theorem internAll_keeps {P : Interner → Prop} (step : ∀ t s, P t → P (t.intern s).2) {t : Interner}
    (h : P t) (ss : List String) : P (t.internAll ss) := by
  induction ss generalizing t with
  | nil => exact h
  | cons s ss ih => exact ih (step t s h)

theorem extends_internAll (t : Interner) (ss : List String) : t.Extends (t.internAll ss) :=
  internAll_keeps (fun t' s ht => ht.trans (t'.extends_intern s)) (.refl t) ss

theorem knows_internAll {t : Interner} {s : String} {ss : List String} (hs : s ∈ ss) :
    (t.internAll ss).Knows s := by
  induction ss generalizing t with
  | nil => cases hs
  | cons u ss ih =>
    rcases List.mem_cons.mp hs with rfl | hs
    · exact (t.knows_intern s).mono (extends_internAll _ ss)
    · exact ih hs

theorem internAll_of_knows {t : Interner} {ss : List String} (h : ∀ s ∈ ss, t.Knows s) :
    t.internAll ss = t := by
  induction ss with
  | nil => rfl
  | cons s ss ih =>
    obtain ⟨hs, hss⟩ := List.forall_mem_cons.mp h
    rw [internAll_cons, intern_of_knows hs, ih hss]

/-! ## handles -/

theorem textOf_of_texts {t : Interner} {s : String} {n : Name} (h : t.texts[n.raw]? = some s) :
    t.textOf n = s := by
  rw [textOf, h]
  rfl

theorem nameOf_eq {t : Interner} {s : String} {i : Nat} (h : t.texts[i]? = some s) :
    t.nameOf s = ⟨i⟩ := by
  rw [nameOf, get?, (t.agree s i).mpr h]
  rfl

/-- the handle of a text leads back to it, also when more texts have been taken in -/
theorem textOf_nameOf {t t' : Interner} {s : String} (hs : t.Knows s) (he : t.Extends t') :
    t'.textOf (t.nameOf s) = s := by
  obtain ⟨i, hi⟩ := hs
  rw [nameOf_eq hi]
  exact textOf_of_texts (he i s hi)

/-- a text keeps its handle -/
theorem nameOf_of_extends {t t' : Interner} {s : String} (hs : t.Knows s) (he : t.Extends t') :
    t'.nameOf s = t.nameOf s := by
  obtain ⟨i, hi⟩ := hs
  rw [nameOf_eq hi, nameOf_eq (he i s hi)]

theorem nameOf_eq_iff {t : Interner} {a b : String} (ha : t.Knows a) (hb : t.Knows b) :
    t.nameOf a = t.nameOf b ↔ a = b := by
  constructor
  · intro h
    rw [← textOf_nameOf ha (.refl t), h, textOf_nameOf hb (.refl t)]
  · rintro rfl
    rfl

/-- the handle that a text gets is the one that it has ever after -/
theorem intern_eq {t t' : Interner} {s : String} (h : (t.intern s).2.Extends t') :
    t.intern s = (t'.nameOf s, (t.intern s).2) := by
  have hname : t'.nameOf s = (t.intern s).1 := nameOf_eq (h _ _ (t.texts_intern s))
  rw [hname]

/-- an early handle leads to its text through every interner in between -/
theorem textOf_later {t t' : Interner} {s : String} (hs : t.Knows s) (he : t.Extends t') :
    t.textOf (t'.nameOf s) = s := by
  rw [nameOf_of_extends hs he]
  exact textOf_nameOf hs (.refl t)

end Interner

end TraceFront
