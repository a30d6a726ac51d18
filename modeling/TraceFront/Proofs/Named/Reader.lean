import TraceFront.Proofs.Datum.Reading
import TraceFront.Proofs.Named.Transcription

/-!
# Reading into handles is reading

The reader of a session and the reader of texts go through the same states, but for the handles.

* `Reader.map`               a reader with other names in the terms that it holds;
* `Token.names`              the names in the atom that a token is;
* `transcribes_take`         one token, and `transcribes_takeAll` a whole run;
* `transcribes_readNames`    so the datums of a session are those of the tokens, with handles;
* `names_of_readTokens`      the names in them come from tokens and from the words of sigils.
-/

namespace TraceFront

variable {ν μ : Type}

theorem Datum.map_headed (f : ν → μ) (word : ν) (start : Nat) (d : Datum ν) :
    (headed word start d).map f = headed (f word) start (d.map f) := by
  rw [headed, headed, span_map]
  rfl

theorem Delimiter.map_datum (f : ν → μ) (shape : Delimiter) (ds : List (Datum ν)) (span : Span) :
    (shape.datum ds span).map f = shape.datum (ds.map (Datum.map f)) span := by
  rw [← Datum.mapAll_eq_map]
  cases shape <;> rfl

def Unfinished.map (f : ν → μ) : Unfinished ν → Unfinished μ
  | bracket shape start items => bracket shape start (items.map (Datum.map f))
  | sigil mark start => sigil mark start

theorem Unfinished.error_map (f : ν → μ) (u : Unfinished ν) : (u.map f).error = u.error := by
  cases u <;> rfl

def Reader.map (f : ν → μ) (r : Reader ν) : Reader μ :=
  ⟨r.stack.map (Unfinished.map f), r.done.map (Datum.map f)⟩

theorem Reader.finish_map (f : ν → μ) (r : Reader ν) :
    (r.map f).finish = r.finish.map (List.map (Datum.map f)) := by
  obtain ⟨stack, done⟩ := r
  cases stack with
  | nil => exact congrArg Except.ok List.map_reverse.symm
  | cons u us => exact congrArg Except.error (u.error_map f)

/-- the names in the atom that a token is -/
def Token.names (t : Token) : List String := (t.atom?.map Datum.names).getD []

open Interning

theorem transcribes_nameSymbol (s : String) (span : Span) :
    Transcribes [] (fun _ => nameSymbol s span) (fun ρ => .ok ((Datum.ofSymbol s span).map ρ))
      (Datum.ofSymbol s span).names := by
  unfold nameSymbol Datum.ofSymbol
  split
  · exact transcribes_pure _ (List.Subset.refl _)
  split
  · exact transcribes_pure _ (List.Subset.refl _)
  split
  · exact transcribes_pure _ (List.Subset.refl _)
  · refine (transcribes_intern s).bind ?_
    exact transcribes_pure (fun ρ => Datum.symbol (ρ s) span) (List.subset_append_right _ _)

namespace Reader

theorem transcribes_deliver (done : List (Datum String)) :
    ∀ (us : List (Unfinished String)) (d : Datum String), Transcribes []
      (fun ρ => deliver (done.map (Datum.map ρ)) (d.map ρ) (us.map (Unfinished.map ρ)))
      (fun ρ => .ok ((place done d us).map ρ)) []
  | [], d => transcribes_pure _ (List.Subset.refl _)
  | .bracket shape start items :: us, d => transcribes_pure _ (List.Subset.refl _)
  | .sigil mark start :: us, d => by
    have hrest := transcribes_deliver done us (mark.wrap start d)
    refine (transcribes_intern mark.form.word).bind ?_
    simp only [Sigil.wrap, Datum.map_headed] at hrest
    exact hrest.weaken (List.nil_subset _) (List.nil_subset _)

theorem transcribes_atom (r : Reader String)
    {x : (String → Name) → Interning ReadError (Datum Name)}
    {d : Datum String} {names : List String}
    (hx : Transcribes [] x (fun ρ => .ok (d.map ρ)) names) : Transcribes []
      (fun ρ => x ρ >>= fun d => deliver (r.map ρ).done d (r.map ρ).stack)
      (fun ρ => .ok ((r.atom d).map ρ)) names := by
  have hdeliver := transcribes_deliver r.done r.stack d
  exact hx.bind (hdeliver.weaken (List.nil_subset _) (by simp))

theorem transcribes_shut (r : Reader String) (shape : Delimiter) (span : Span) : Transcribes []
    (fun ρ => (r.map ρ).shut shape span) (fun ρ => (r.close shape span).map (Reader.map ρ)) [] := by
  obtain ⟨stack, done⟩ := r
  rcases stack with _ | ⟨⟨shape', start, items⟩ | ⟨mark, start⟩, us⟩
  · exact transcribes_throw _
  · simp only [shut, close, map, List.map_cons, Unfinished.map]
    split
    · have hdeliver := transcribes_deliver done us (shape.datum items.reverse ⟨start, span.stop⟩)
      simpa only [Delimiter.map_datum, List.map_reverse, Except.map] using hdeliver
    · exact transcribes_throw _
  · exact transcribes_throw _

theorem transcribes_take (r : Reader String) (t : Token) : Transcribes []
    (fun ρ => (r.map ρ).take t) (fun ρ => (r.step t).map (Reader.map ρ)) t.names := by
  have hliteral (l : Literal String) :
      Transcribes [] (fun ρ => (pure (.literal (l.map ρ) t.span) : Interning ReadError (Datum Name)))
        (fun ρ => .ok ((Datum.literal l t.span).map ρ)) [] :=
    transcribes_pure _ (List.Subset.refl _)
  obtain ⟨kind, span⟩ := t
  cases kind with
  | opening shape => exact transcribes_pure _ (List.Subset.refl _)
  | closing shape => exact transcribes_shut r shape span
  | sigil mark => exact transcribes_pure _ (List.Subset.refl _)
  | int n => exact r.transcribes_atom (hliteral (.int n))
  | float x => exact r.transcribes_atom (hliteral (.float x))
  | symbol s => exact r.transcribes_atom (transcribes_nameSymbol s span)
  | str s =>
    refine (transcribes_intern s).bind ?_
    have hdeliver := transcribes_deliver r.done r.stack (.literal (.str s) span)
    exact hdeliver.weaken (List.nil_subset _) (List.subset_append_left _ _)
  | keyword k =>
    refine (transcribes_intern k).bind ?_
    have hdeliver := transcribes_deliver r.done r.stack (.literal (.keyword k) span)
    exact hdeliver.weaken (List.nil_subset _) (List.subset_append_left _ _)

theorem transcribes_takeAll {ts : List Token} : ∀ {r r' : Reader String}, r.steps ts = .ok r' →
    Transcribes [] (fun ρ => (r.map ρ).takeAll ts) (fun ρ => .ok (r'.map ρ))
      (ts.flatMap Token.names) := by
  induction ts with
  | nil =>
    intro r r' h
    cases h
    exact transcribes_pure _ (List.Subset.refl _)
  | cons t ts ih =>
    intro r r' h
    rw [steps] at h
    cases ht : r.step t with
    | error e =>
      rw [ht] at h
      cases h
    | ok r₁ =>
      rw [ht] at h
      have hfirst := r.transcribes_take t
      rw [ht] at hfirst
      refine Transcribes.bind hfirst ((ih h).weaken (List.nil_subset _) ?_)
      rw [List.flatMap_cons]
      simp

theorem transcribes_takeAll_error {ts : List Token} {e : ReadError} : ∀ {r : Reader String},
    r.steps ts = .error e →
      Transcribes [] (fun ρ => (r.map ρ).takeAll ts) (fun _ => .error e) [] := by
  induction ts with
  | nil =>
    intro r h
    cases h
  | cons t ts ih =>
    intro r h
    rw [steps] at h
    have hfirst := r.transcribes_take t
    cases ht : r.step t with
    | error e' =>
      rw [ht] at h hfirst
      cases h
      exact hfirst.bind_error
    | ok r₁ =>
      rw [ht] at h hfirst
      exact Transcribes.bind hfirst ((ih h).weaken (List.nil_subset _) (List.nil_subset _))

end Reader

theorem transcribes_readNames {ts : List Token} {ds : List (Datum String)}
    (h : readTokens ts = .ok ds) :
    Transcribes [] (fun _ => readNames ts) (fun ρ => .ok (ds.map (Datum.map ρ)))
      (ts.flatMap Token.names) := by
  unfold readTokens at h
  split at h
  · rename_i r hr
    refine (Reader.transcribes_takeAll hr).bind ?_
    have hfinish := transcribes_outcome (fun ρ => (r.map ρ).finish)
      (List.subset_append_right [] (ts.flatMap Token.names))
    simpa only [Reader.finish_map, h, Except.map] using hfinish
  · cases h

theorem transcribes_readNames_error {ts : List Token} {e : ReadError}
    (h : readTokens ts = .error e) :
    Transcribes [] (fun _ => readNames ts) (fun _ => .error e) [] := by
  unfold readTokens at h
  split at h
  · rename_i r hr
    refine (Reader.transcribes_takeAll hr).bind ?_
    have hfinish := transcribes_outcome (fun ρ => (r.map ρ).finish)
      (List.nil_subset ([] ++ ts.flatMap Token.names))
    simpa only [Reader.finish_map, h, Except.map] using hfinish
  · rename_i hr
    cases h
    exact (Reader.transcribes_takeAll_error hr).bind_error

/-- the names in datums come from tokens and from the words of sigils -/
theorem names_of_readTokens {ts : List Token} {ds : List (Datum String)}
    (h : readTokens ts = .ok ds) :
    Datum.namesAll ds ⊆ Vocabulary.words ++ ts.flatMap Token.names := by
  intro n hn
  obtain ⟨d, hd, hnd⟩ := Datum.mem_namesAll.mp hn
  refine forall_mem_readTokens (Q := (·.names ⊆ Vocabulary.words ++ ts.flatMap Token.names))
    ?_ ?_ ?_ h d hd hnd
  · intro shape ds span hds n hn
    have hall : n ∈ Datum.namesAll ds := by
      cases shape with
      | round => exact hn
      | square => exact hn
    obtain ⟨d, hd, hnd⟩ := Datum.mem_namesAll.mp hall
    exact hds d hd hnd
  · intro mark start d hd n hn
    simp only [Sigil.wrap, Datum.headed, Datum.names, Datum.namesAll, List.append_nil,
      List.mem_append, List.mem_singleton] at hn
    rcases hn with rfl | hn
    · exact List.mem_append_left _ (List.mem_map_of_mem (SpecialForm.mem_all _))
    · exact hd hn
  · intro t ht d hd n hn
    refine List.mem_append_right _ (List.mem_flatMap.mpr ⟨t, ht, ?_⟩)
    rw [Token.names, hd]
    exact hn

end TraceFront
