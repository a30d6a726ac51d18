import TraceFront.Proofs.Datum.Grammar
import TraceFront.Proofs.Source.Identifiers

/-!
# A term has no more parts than its source has characters

* `length_lexFrom_le`   each token takes a character of its own;
* `Datum.Narrow`        a bound on the items of a datum and of all datums inside it;
* `Phrase.narrow`       each item of a datum takes a token of its own;
* `read_narrow`         so no datum of a source has more items than the source has characters.
-/

namespace TraceFront

/-! ## characters and bytes -/

namespace Text

theorem length_le_byteLength (cs : List Char) : cs.length ≤ byteLength cs := by
  induction cs with
  | nil => exact Nat.le_refl _
  | cons c cs ih =>
    have hpos := c.utf8Size_pos
    rw [byteLength_cons, List.length_cons]
    omega

theorem utf8ByteSize_ofList (cs : List Char) : (String.ofList cs).utf8ByteSize = byteLength cs := by
  induction cs with
  | nil => rfl
  | cons c cs ih =>
    have happend : String.ofList (c :: cs) = String.singleton c ++ String.ofList cs := by
      rw [String.singleton_eq_ofList, ← String.ofList_append]
      rfl
    rw [happend, String.utf8ByteSize_append, String.utf8ByteSize_singleton, ih, byteLength_cons]

theorem length_le_utf8ByteSize (s : String) : s.toList.length ≤ s.utf8ByteSize := by
  have hsize := utf8ByteSize_ofList s.toList
  rw [String.ofList_toList] at hsize
  rw [hsize]
  exact length_le_byteLength s.toList

end Text

/-! ## tokens -/

theorem length_lexFrom_le {p : Cursor} {ts : List Token} (h : lexFrom p = .ok ts) :
    ts.length ≤ p.rest.length := by
  induction ts generalizing p with
  | nil => exact Nat.zero_le _
  | cons t ts ih =>
    rcases lexFrom_cases h with ⟨_, hnil⟩ | ⟨u, q, us, hnext, hus, heq⟩
    · cases hnil
    · cases heq
      have hshorter := nextToken_shorter hnext
      have hrest := ih hus
      rw [List.length_cons]
      omega

/-! ## items -/

/-- no datum inside has more than `N` items -/
def Datum.Narrow (N : Nat) (d : Datum String) : Prop := ∀ c ∈ d.subterms, c.items.length ≤ N

namespace Datum.Narrow

variable {N : Nat} {d : Datum String}

theorem self (h : d.Narrow N) : d.items.length ≤ N := h d (mem_subterms.mpr (.inl rfl))

theorem item (h : d.Narrow N) {c : Datum String} (hc : c ∈ d.items) : c.Narrow N :=
  fun b hb => h b (mem_subterms.mpr (.inr ⟨c, hc, hb⟩))

theorem mono {M : Nat} (h : d.Narrow N) (hM : N ≤ M) : d.Narrow M :=
  fun c hc => Nat.le_trans (h c hc) hM

theorem intro (hself : d.items.length ≤ N) (hitems : ∀ c ∈ d.items, c.Narrow N) : d.Narrow N := by
  intro c hc
  rcases mem_subterms.mp hc with rfl | ⟨b, hb, hcb⟩
  · exact hself
  · exact hitems b hb c hcb

end Datum.Narrow

namespace Phrase

theorem items_of_atom? {t : Token} {d : Datum String} (h : t.atom? = some d) : d.items = [] := by
  rcases Token.atom?_cases h with ⟨l, _, rfl⟩ | ⟨n, _, _, _, _, rfl⟩
  · rfl
  · rfl

theorem length_datums_le (ps : List Phrase) : (datums ps).length ≤ (tokensAll ps).length := by
  induction ps with
  | nil => exact Nat.le_refl _
  | cons p ps ih =>
    have hpos : 0 < p.tokens.length := List.length_pos_iff.mpr p.tokens_ne_nil
    rw [datums, tokensAll, List.length_cons, List.length_append]
    omega

theorem items_bracket (shape : Delimiter) (ds : List (Datum String)) (s : Span) :
    (shape.datum ds s).items = ds := by
  cases shape <;> rfl

mutual

theorem narrow : ∀ p : Phrase, p.datum.Narrow p.tokens.length
  | .atom t d h => by
    have hitems : d.items = [] := items_of_atom? h
    refine .intro ?_ ?_
    · show d.items.length ≤ _
      rw [hitems]
      exact Nat.zero_le _
    · show ∀ c ∈ d.items, _
      rw [hitems]
      exact List.forall_mem_nil _
  | .bracket shape t ps u ht hu => by
    have hlength : (tokensAll ps).length ≤ (bracket shape t ps u ht hu).tokens.length := by
      rw [tokens, List.length_cons, List.length_append]
      omega
    have hcount := length_datums_le ps
    rw [datum_bracket]
    refine .intro ?_ ?_
    · rw [items_bracket]
      omega
    · rw [items_bracket]
      exact fun d hd => (narrowAll ps d hd).mono hlength
  | .sigil mark t p ht => by
    have hpos : 0 < p.tokens.length := List.length_pos_iff.mpr p.tokens_ne_nil
    have hlength : (sigil mark t p ht).tokens.length = p.tokens.length + 1 := rfl
    rw [datum_sigil, hlength]
    refine .intro ?_ ?_
    · -- the word of the sigil and the datum behind it, which has a token at least
      show 2 ≤ _
      omega
    · refine List.forall_mem_cons.mpr ⟨.intro (Nat.zero_le _) (List.forall_mem_nil _), ?_⟩
      exact List.forall_mem_singleton.mpr (p.narrow.mono (Nat.le_succ _))

theorem narrowAll : ∀ ps : List Phrase, ∀ d ∈ datums ps, d.Narrow (tokensAll ps).length
  | [] => List.forall_mem_nil _
  | p :: ps => by
    have hlength : (tokensAll (p :: ps)).length = p.tokens.length + (tokensAll ps).length := by
      rw [tokensAll, List.length_append]
    rw [hlength]
    refine List.forall_mem_cons.mpr ⟨p.narrow.mono (Nat.le_add_right _ _), ?_⟩
    exact fun d hd => (narrowAll ps d hd).mono (Nat.le_add_left _ _)

end

end Phrase

/-- no datum of a source has more items than the source has characters -/
theorem read_narrow {source : String} {ds : List (Datum String)} (h : read source = .ok ds) :
    ∀ d ∈ ds, d.Narrow source.toList.length := by
  obtain ⟨ts, hlex, hread⟩ := read_eq_ok h
  obtain ⟨ps, rfl, rfl⟩ := exists_phrases hread
  have hlength : (Phrase.tokensAll ps).length ≤ source.toList.length := length_lexFrom_le hlex
  exact fun d hd => (Phrase.narrowAll ps d hd).mono hlength

end TraceFront
