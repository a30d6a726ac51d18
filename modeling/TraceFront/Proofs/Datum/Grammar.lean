import TraceFront.Proofs.Datum.Reading

/-!
# The grammar of datums

    Data  ::=  Datum*
    Datum ::=  atom  |  ( Datum* )  |  [ Datum* ]  |  ~ Datum  |  ~@ Datum

The reader goes through the tokens once, with a stack of unfinished terms.  Here it is compared with
the grammar:

* `Phrase`                  a derivation of one datum, with the tokens that it is made of;
* `Phrase.tokens`, `datum`  what a derivation derives and the datum that it stands for;
* `Reader.steps_tokensAll`  the reader delivers the datums of derivations one after the other;
* `Parsing`                 derivations, finished and unfinished, that account for a reader and for
                            the tokens it has taken; `Parsing.step` keeps that up for one token and
                            `Parsing.steps` for a run;
* `tokensAll_injective`     tokens have at most one derivation.

The two directions go different ways.  A derivation is read by recursion on it.  A run of the reader
is turned into derivations by the invariant that the unfinished terms, from the outermost on, and
the finished datums before them are made of the tokens taken so far.
-/

namespace TraceFront

/-- a derivation of one datum -/
inductive Phrase where
  | atom (token : Token) (datum : Datum String) (h : token.atom? = some datum)
  | bracket (shape : Delimiter) (first : Token) (items : List Phrase) (last : Token)
      (hfirst : first.kind = .opening shape) (hlast : last.kind = .closing shape)
  | sigil (mark : Sigil) (first : Token) (term : Phrase) (hfirst : first.kind = .sigil mark)

/-- from the start of the first token to the end of the last one -/
def extent (ts : List Token) : Span :=
  ⟨(ts.head?.map (·.span.start)).getD 0, (ts.getLast?.map (·.span.stop)).getD 0⟩

namespace Phrase

mutual

/-- the tokens of a derivation -/
def tokens : Phrase → List Token
  | atom t _ _ => [t]
  | bracket _ t ps u _ _ => t :: (tokensAll ps ++ [u])
  | sigil _ t p _ => t :: p.tokens

def tokensAll : List Phrase → List Token
  | [] => []
  | p :: ps => p.tokens ++ tokensAll ps

end

mutual

/-- the datum of a derivation -/
def datum : Phrase → Datum String
  | atom _ d _ => d
  | bracket .round t ps u _ _ => .list (datums ps) (extent (t :: (tokensAll ps ++ [u])))
  | bracket .square t ps u _ _ => .vector (datums ps) (extent (t :: (tokensAll ps ++ [u])))
  | sigil .unquote t p _ =>
    .list [.symbol "unquote" ⟨t.span.start, t.span.start⟩, p.datum] (extent (t :: p.tokens))
  | sigil .splice t p _ =>
    .list [.symbol "splice" ⟨t.span.start, t.span.start⟩, p.datum] (extent (t :: p.tokens))

def datums : List Phrase → List (Datum String)
  | [] => []
  | p :: ps => p.datum :: datums ps

end

theorem tokensAll_append (ps qs : List Phrase) :
    tokensAll (ps ++ qs) = tokensAll ps ++ tokensAll qs := by
  induction ps with
  | nil => rfl
  | cons p ps ih => rw [List.cons_append, tokensAll, ih, tokensAll, List.append_assoc]

theorem datums_append (ps qs : List Phrase) : datums (ps ++ qs) = datums ps ++ datums qs := by
  induction ps with
  | nil => rfl
  | cons p ps ih => rw [List.cons_append, datums, ih, datums, List.cons_append]

/-! ## spans -/

theorem extent_bracket (t : Token) (ts : List Token) (u : Token) :
    extent (t :: (ts ++ [u])) = ⟨t.span.start, u.span.stop⟩ := by
  have hlast : (t :: (ts ++ [u])).getLast? = some u := by
    rw [← List.cons_append, List.getLast?_concat]
  rw [extent, hlast]
  rfl

theorem tokens_ne_nil (p : Phrase) : p.tokens ≠ [] := by
  cases p with
  | atom t d h => exact List.cons_ne_nil _ _
  | bracket shape t ps u ht hu => exact List.cons_ne_nil _ _
  | sigil mark t p ht => exact List.cons_ne_nil _ _

theorem extent_sigil (t : Token) (p : Phrase) :
    extent (t :: p.tokens) = ⟨t.span.start, (extent p.tokens).stop⟩ := by
  have hlast : (t :: p.tokens).getLast? = p.tokens.getLast? := by
    obtain ⟨u, us, hu⟩ := List.exists_cons_of_ne_nil p.tokens_ne_nil
    rw [hu, List.getLast?_cons_cons]
  rw [extent, hlast]
  rfl

theorem span_of_atom? {t : Token} {d : Datum String} (h : t.atom? = some d) : d.span = t.span := by
  rcases Token.atom?_cases h with ⟨l, _, rfl⟩ | ⟨n, _, _, _, _, rfl⟩
  · rfl
  · rfl

theorem span_datum (p : Phrase) : p.datum.span = extent p.tokens := by
  cases p with
  | atom t d h => exact span_of_atom? h
  | bracket shape t ps u ht hu => cases shape <;> rfl
  | sigil mark t p ht => cases mark <;> rfl

theorem datum_bracket (shape : Delimiter) (t : Token) (ps : List Phrase) (u : Token)
    (ht : t.kind = .opening shape) (hu : u.kind = .closing shape) :
    (bracket shape t ps u ht hu).datum =
      shape.datum (datums ps) ⟨t.span.start, u.span.stop⟩ := by
  cases shape with
  | round => rw [datum, extent_bracket]; rfl
  | square => rw [datum, extent_bracket]; rfl

theorem datum_sigil (mark : Sigil) (t : Token) (p : Phrase) (ht : t.kind = .sigil mark) :
    (sigil mark t p ht).datum = mark.wrap t.span.start p.datum := by
  cases mark with
  | unquote => rw [datum, extent_sigil, ← span_datum]; rfl
  | splice => rw [datum, extent_sigil, ← span_datum]; rfl

end Phrase

open Phrase

/-! ## reading a derivation -/

namespace Reader

theorem steps_append {r r' : Reader String} {ts : List Token} (h : r.steps ts = .ok r')
    (us : List Token) : r.steps (ts ++ us) = r'.steps us := by
  induction ts generalizing r with
  | nil =>
    cases h
    rfl
  | cons t ts ih =>
    rw [steps] at h
    rw [List.cons_append, steps]
    cases hstep : r.step t with
    | ok r₁ =>
      rw [hstep] at h
      exact ih h
    | error e =>
      rw [hstep] at h
      cases h

theorem steps_cons {r r' : Reader String} {t : Token} (h : r.step t = .ok r') (ts : List Token) :
    r.steps (t :: ts) = r'.steps ts := by
  rw [steps, h]

theorem step_atom {t : Token} {d : Datum String} (h : t.atom? = some d) (r : Reader String) :
    r.step t = .ok (r.atom d) := by
  unfold Token.atom? at h
  unfold step
  split at h
  case h_6 => cases h
  all_goals
    rename_i hk
    cases h
    rw [hk]

theorem step_opening {t : Token} {shape : Delimiter} (h : t.kind = .opening shape)
    (r : Reader String) : r.step t = .ok (r.push (.bracket shape t.span.start [])) := by
  rw [step, h]

theorem step_sigil {t : Token} {mark : Sigil} (h : t.kind = .sigil mark) (r : Reader String) :
    r.step t = .ok (r.push (.sigil mark t.span.start)) := by
  rw [step, h]

theorem step_closing {t : Token} {shape : Delimiter} (h : t.kind = .closing shape) (start : Nat)
    (ds : List (Datum String)) (r : Reader String) :
    (r.push (.bracket shape start ds)).step t =
      .ok (r.atom (shape.datum ds.reverse ⟨start, t.span.stop⟩)) := by
  rw [step, h]
  exact if_pos rfl

/-- datums that arrive inside an open bracket stay there -/
theorem foldl_atom_bracket (shape : Delimiter) (start : Nat) (r : Reader String)
    (ds cs : List (Datum String)) : ds.foldl Reader.atom (r.push (.bracket shape start cs)) =
      r.push (.bracket shape start (ds.reverse ++ cs)) := by
  induction ds generalizing cs with
  | nil => rfl
  | cons d ds ih =>
    show ds.foldl Reader.atom (r.push (.bracket shape start (d :: cs))) = _
    rw [ih, List.reverse_cons, List.append_assoc]
    rfl

theorem foldl_atom_top (ds cs : List (Datum String)) :
    ds.foldl Reader.atom ⟨[], cs⟩ = ⟨[], ds.reverse ++ cs⟩ := by
  induction ds generalizing cs with
  | nil => rfl
  | cons d ds ih =>
    show ds.foldl Reader.atom ⟨[], d :: cs⟩ = _
    rw [ih, List.reverse_cons, List.append_assoc]
    rfl

mutual

theorem steps_tokens : ∀ (p : Phrase) (r : Reader String), r.steps p.tokens = .ok (r.atom p.datum)
  | .atom t d h, r => by
    rw [tokens, steps_cons (step_atom h r)]
    rfl
  | .bracket shape t ps u ht hu, r => by
    rw [tokens, steps_cons (step_opening ht r), steps_append (steps_tokensAll ps _),
      foldl_atom_bracket, steps_cons (step_closing hu _ _ r), List.append_nil,
      List.reverse_reverse, datum_bracket]
    rfl
  | .sigil mark t p ht, r => by
    rw [tokens, steps_cons (step_sigil ht r), steps_tokens p, datum_sigil]
    rfl

theorem steps_tokensAll : ∀ (ps : List Phrase) (r : Reader String),
    r.steps (tokensAll ps) = .ok ((datums ps).foldl Reader.atom r)
  | [], r => rfl
  | p :: ps, r => by
    rw [tokensAll, steps_append (steps_tokens p r), steps_tokensAll ps]
    rfl

end

end Reader

theorem readTokens_tokensAll (ps : List Phrase) : readTokens (tokensAll ps) = .ok (datums ps) := by
  rw [readTokens, Reader.steps_tokensAll, Reader.empty, Reader.foldl_atom_top]
  show Except.ok ((datums ps).reverse ++ []).reverse = _
  rw [List.append_nil, List.reverse_reverse]

/-! ## the derivations of a run -/

/-- a derivation that is not finished -/
inductive OpenPhrase where
  | bracket (shape : Delimiter) (first : Token) (items : List Phrase)
      (hfirst : first.kind = .opening shape)
  | sigil (mark : Sigil) (first : Token) (hfirst : first.kind = .sigil mark)

namespace OpenPhrase

def tokens : OpenPhrase → List Token
  | bracket _ t ps _ => t :: tokensAll ps
  | sigil _ t _ => [t]

def unfinished : OpenPhrase → Unfinished String
  | bracket shape t ps _ => .bracket shape t.span.start (datums ps).reverse
  | sigil mark t _ => .sigil mark t.span.start

end OpenPhrase

/-- unfinished derivations, innermost first, and the finished ones before them, in order -/
structure Parsing where
  stack : List OpenPhrase
  done : List Phrase

namespace Parsing

/-- the tokens taken so far -/
def tokens (s : Parsing) : List Token :=
  tokensAll s.done ++ s.stack.reverse.flatMap OpenPhrase.tokens

/-- the reader that has taken these tokens -/
def reader (s : Parsing) :
    Reader String := ⟨s.stack.map OpenPhrase.unfinished, (datums s.done).reverse⟩

theorem tokens_cons (o : OpenPhrase) (os : List OpenPhrase) (ps : List Phrase) :
    tokens ⟨o :: os, ps⟩ = tokens ⟨os, ps⟩ ++ o.tokens := by
  simp [tokens]

theorem place (p : Phrase) (os : List OpenPhrase) (ps : List Phrase) :
    ∃ s : Parsing, s.tokens = tokens ⟨os, ps⟩ ++ p.tokens ∧
      s.reader = Reader.place (datums ps).reverse p.datum (os.map OpenPhrase.unfinished) := by
  induction os generalizing p with
  | nil =>
    refine ⟨⟨[], ps ++ [p]⟩, ?_, ?_⟩
    · simp [tokens, tokensAll_append, tokensAll]
    · simp [reader, Reader.place, datums_append, datums]
  | cons o os ih =>
    rw [tokens_cons]
    cases o with
    | sigil mark t ht =>
      -- the sigil and its term are finished together
      obtain ⟨s, htokens, hreader⟩ := ih (.sigil mark t p ht)
      refine ⟨s, ?_, ?_⟩
      · rw [htokens, List.append_assoc]
        rfl
      · rw [hreader, datum_sigil]
        rfl
    | bracket shape t qs ht =>
      refine ⟨⟨.bracket shape t (qs ++ [p]) ht :: os, ps⟩, ?_, ?_⟩
      · simp [tokens_cons, OpenPhrase.tokens, tokensAll_append, tokensAll]
      · simp [reader, Reader.place, OpenPhrase.unfinished, datums_append, datums]

theorem step (s : Parsing) {t : Token} {r : Reader String} (h : s.reader.step t = .ok r) :
    ∃ s' : Parsing, s'.tokens = s.tokens ++ [t] ∧ s'.reader = r := by
  obtain ⟨os, ps⟩ := s
  rcases Reader.step_cases h with ⟨shape, hk, rfl⟩ | ⟨mark, hk, rfl⟩ | ⟨d, hd, rfl⟩ |
    ⟨shape, start, ds, us, hk, hstack, rfl⟩
  · exact ⟨⟨.bracket shape t [] hk :: os, ps⟩, tokens_cons _ _ _, rfl⟩
  · exact ⟨⟨.sigil mark t hk :: os, ps⟩, tokens_cons _ _ _, rfl⟩
  · exact place (.atom t d hd) os ps
  · cases os with
    | nil => cases hstack
    | cons o os =>
      cases o with
      | sigil mark u hu => cases hstack
      | bracket shape' u qs hu =>
        -- the shapes agree, so the innermost derivation is finished and goes where an atom would
        cases hstack
        obtain ⟨s, htokens, hreader⟩ := place (.bracket shape u qs t hu hk) os ps
        refine ⟨s, ?_, ?_⟩
        · rw [htokens, tokens_cons, List.append_assoc]
          rfl
        · rw [hreader, datum_bracket, List.reverse_reverse]
          rfl

theorem steps {ts : List Token} (s : Parsing) {r : Reader String} (h : s.reader.steps ts = .ok r) :
    ∃ s' : Parsing, s'.tokens = s.tokens ++ ts ∧ s'.reader = r := by
  induction ts generalizing s with
  | nil =>
    cases h
    exact ⟨s, (List.append_nil _).symm, rfl⟩
  | cons t ts ih =>
    rw [Reader.steps] at h
    split at h
    · rename_i r₁ h₁
      obtain ⟨s₁, htokens₁, rfl⟩ := s.step h₁
      obtain ⟨s₂, htokens₂, hreader₂⟩ := ih s₁ h
      refine ⟨s₂, ?_, hreader₂⟩
      rw [htokens₂, htokens₁, List.append_assoc]
      rfl
    · cases h

end Parsing

theorem exists_phrases {ts : List Token} {ds : List (Datum String)} (h : readTokens ts = .ok ds) :
    ∃ ps : List Phrase, tokensAll ps = ts ∧ datums ps = ds := by
  unfold readTokens at h
  split at h
  · rename_i r hr
    obtain ⟨⟨os, ps⟩, htokens, rfl⟩ := Parsing.steps ⟨[], []⟩ hr
    cases os with
    | nil =>
      cases h
      refine ⟨ps, ?_, (List.reverse_reverse _).symm⟩
      simpa [Parsing.tokens, tokensAll] using htokens
    | cons o os => cases h
  · cases h

/-! ## one derivation only -/

theorem atom?_of_opening {t : Token} {shape : Delimiter} (h : t.kind = .opening shape) :
    t.atom? = none := by
  rw [Token.atom?, h]

theorem atom?_of_sigil {t : Token} {mark : Sigil} (h : t.kind = .sigil mark) : t.atom? = none := by
  rw [Token.atom?, h]

theorem isClosing_of_atom? {t : Token} {d : Datum String} (h : t.atom? = some d) :
    t.kind.isClosing = false := by
  rcases Token.atom?_cases h with ⟨l, hk, _⟩ | ⟨n, hk, _⟩
  · rw [hk]
    cases l <;> rfl
  · rw [hk]
    rfl

/-- no derivation starts with a closing bracket -/
theorem exists_tokens_eq_cons (p : Phrase) :
    ∃ t ts, p.tokens = t :: ts ∧ t.kind.isClosing = false := by
  cases p with
  | atom t d h => exact ⟨t, _, rfl, isClosing_of_atom? h⟩
  | bracket shape t ps u ht hu => exact ⟨t, _, rfl, by rw [ht]; rfl⟩
  | sigil mark t p ht => exact ⟨t, _, rfl, by rw [ht]; rfl⟩

/-- the tokens are at an end, or a closing bracket comes next -/
def Ended (ts : List Token) : Prop := ∀ t ∈ ts.head?, t.kind.isClosing = true

theorem not_ended_tokens_append (p : Phrase) (ts : List Token) : ¬Ended (p.tokens ++ ts) := by
  obtain ⟨t, us, hp, ht⟩ := exists_tokens_eq_cons p
  intro hended
  have hclosing : t.kind.isClosing = true := hended t (by rw [hp]; rfl)
  rw [ht] at hclosing
  cases hclosing

theorem ended_closing {t : Token} {shape : Delimiter} (h : t.kind = .closing shape)
    (ts : List Token) : Ended (t :: ts) := by
  intro u hu
  cases hu
  rw [h]
  rfl

mutual

/-- where a derivation ends can be told from the tokens -/
theorem tokens_append_inj : ∀ (p q : Phrase) {x y : List Token},
    p.tokens ++ x = q.tokens ++ y → p = q ∧ x = y
  | .atom t d h, q, x, y, heq => by
    cases q with
    | atom t' d' h' =>
      obtain ⟨rfl, rfl⟩ := List.cons.inj heq
      obtain rfl := Option.some.inj (h.symm.trans h')
      exact ⟨rfl, rfl⟩
    | bracket shape t' qs u' ht' hu' =>
      obtain ⟨rfl, _⟩ := List.cons.inj heq
      cases h.symm.trans (atom?_of_opening ht')
    | sigil mark t' q ht' =>
      obtain ⟨rfl, _⟩ := List.cons.inj heq
      cases h.symm.trans (atom?_of_sigil ht')
  | .bracket shape t ps u ht hu, q, x, y, heq => by
    cases q with
    | atom t' d' h' =>
      obtain ⟨rfl, _⟩ := List.cons.inj heq
      cases h'.symm.trans (atom?_of_opening ht)
    | bracket shape' t' qs u' ht' hu' =>
      obtain ⟨rfl, htail⟩ := List.cons.inj heq
      cases ht.symm.trans ht'
      have hitems : tokensAll ps ++ u :: x = tokensAll qs ++ u' :: y := by
        simpa using htail
      -- the items have no end of their own: only the closing bracket behind them tells it
      obtain ⟨rfl, hrest⟩ :=
        tokensAll_append_inj ps qs (ended_closing hu x) (ended_closing hu' y) hitems
      obtain ⟨rfl, rfl⟩ := List.cons.inj hrest
      exact ⟨rfl, rfl⟩
    | sigil mark t' q ht' =>
      obtain ⟨rfl, _⟩ := List.cons.inj heq
      cases ht.symm.trans ht'
  | .sigil mark t p ht, q, x, y, heq => by
    cases q with
    | atom t' d' h' =>
      obtain ⟨rfl, _⟩ := List.cons.inj heq
      cases h'.symm.trans (atom?_of_sigil ht)
    | bracket shape t' qs u' ht' hu' =>
      obtain ⟨rfl, _⟩ := List.cons.inj heq
      cases ht.symm.trans ht'
    | sigil mark' t' q ht' =>
      obtain ⟨rfl, htail⟩ := List.cons.inj heq
      cases ht.symm.trans ht'
      obtain ⟨rfl, rfl⟩ := tokens_append_inj p q htail
      exact ⟨rfl, rfl⟩

theorem tokensAll_append_inj : ∀ (ps qs : List Phrase) {x y : List Token}, Ended x → Ended y →
    tokensAll ps ++ x = tokensAll qs ++ y → ps = qs ∧ x = y
  | [], [], x, y, _, _, heq => ⟨rfl, heq⟩
  | [], q :: qs, x, y, hx, _, heq => by
    rw [tokensAll, tokensAll, List.nil_append, List.append_assoc] at heq
    rw [heq] at hx
    exact absurd hx (not_ended_tokens_append q _)
  | p :: ps, [], x, y, _, hy, heq => by
    rw [tokensAll, tokensAll, List.nil_append, List.append_assoc] at heq
    rw [← heq] at hy
    exact absurd hy (not_ended_tokens_append p _)
  | p :: ps, q :: qs, x, y, hx, hy, heq => by
    rw [tokensAll, tokensAll, List.append_assoc, List.append_assoc] at heq
    obtain ⟨rfl, hrest⟩ := tokens_append_inj p q heq
    obtain ⟨rfl, hxy⟩ := tokensAll_append_inj ps qs hx hy hrest
    exact ⟨rfl, hxy⟩

end

theorem tokensAll_injective {ps qs : List Phrase} (h : tokensAll ps = tokensAll qs) : ps = qs := by
  have hended : Ended [] := by
    rintro t ⟨⟩
  refine (tokensAll_append_inj ps qs hended hended ?_).1
  rw [h]

/-- **The reader accepts exactly the grammar of datums.**  It returns datums if and only if the tokens
have derivations of them, and the tokens have no other derivations. -/
theorem readTokens_eq_ok_iff_derivations (ts : List Token) (ds : List (Datum String)) :
    (readTokens ts = .ok ds ↔ ∃ ps : List Phrase, tokensAll ps = ts ∧ datums ps = ds) ∧
      ∀ ps qs : List Phrase, tokensAll ps = ts → tokensAll qs = ts → ps = qs := by
  refine ⟨⟨exists_phrases, ?_⟩, ?_⟩
  · rintro ⟨ps, rfl, rfl⟩
    exact readTokens_tokensAll ps
  · intro ps qs hps hqs
    exact tokensAll_injective (hps.trans hqs.symm)

end TraceFront
