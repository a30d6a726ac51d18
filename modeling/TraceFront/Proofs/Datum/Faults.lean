import TraceFront.Proofs.Datum.Grammar

/-!
# The first fault in the tokens

Tokens that some further tokens turn into datums are VIABLE.  The reader takes a token exactly as
long as the tokens so far are viable, so that it stops at the first token with which they are not,
and at the end it has a term in hand that is not finished.

* `Viable`                  the tokens can be continued to datums;
* `viable_iff_steps`        these are the tokens that the reader takes;
* `FirstFault`              the last token of the shortest beginning that is not viable;
* `InnermostUnfinished`     a token that starts a term which does not end, with none such behind it;
* `Rejection`               the four ways in which tokens are refused, each with its error;
* `rejection_of_readTokens` every refusal is one of them.

Both ends of a refusal are read off the derivations that account for the reader (`Parsing`).  They
can always be completed (`Parsing.viable`), and the innermost unfinished one is a sigil exactly if
the last token is.
-/

namespace TraceFront

open Phrase

/-! ## tokens that can be continued -/

/-- the tokens can be continued to the tokens of datums -/
def Viable (ts : List Token) : Prop := ∃ us ps, ts ++ us = tokensAll ps

theorem Viable.of_prefix {ts us : List Token} (h : Viable ts) (hus : us <+: ts) : Viable us := by
  obtain ⟨vs, rfl⟩ := hus
  obtain ⟨ws, ps, hps⟩ := h
  exact ⟨vs ++ ws, ps, by rw [← hps, List.append_assoc]⟩

namespace Parsing

/-- whatever is unfinished, a datum may come next -/
theorem viable_place (os : List OpenPhrase) (ps : List Phrase) :
    ∀ p : Phrase, Viable (tokens ⟨os, ps⟩ ++ p.tokens) := by
  induction os with
  | nil =>
    intro p
    refine ⟨[], ps ++ [p], ?_⟩
    simp [tokens, tokensAll_append, tokensAll]
  | cons o os ih =>
    intro p
    rw [tokens_cons, List.append_assoc]
    cases o with
    | sigil mark t ht => exact ih (.sigil mark t p ht)
    | bracket shape t qs ht =>
      -- the bracket is closed behind the datum
      have hclosed := ih (.bracket shape t (qs ++ [p]) ⟨.closing shape, default⟩ ht rfl)
      refine hclosed.of_prefix ⟨[⟨.closing shape, default⟩], ?_⟩
      simp [OpenPhrase.tokens, Phrase.tokens, tokensAll_append, tokensAll]

theorem viable (s : Parsing) : Viable s.tokens := by
  have hatom := viable_place s.stack s.done (.atom ⟨.int 0, default⟩ _ rfl)
  exact hatom.of_prefix (List.prefix_append _ _)

end Parsing

namespace Reader

theorem steps_append_eq_ok {r r' : Reader String} {ts us : List Token}
    (h : r.steps (ts ++ us) = .ok r') : ∃ r₁, r.steps ts = .ok r₁ ∧ r₁.steps us = .ok r' := by
  induction ts generalizing r with
  | nil => exact ⟨r, rfl, h⟩
  | cons t ts ih =>
    rw [List.cons_append, steps] at h
    rw [steps]
    cases hstep : r.step t with
    | ok r₁ =>
      rw [hstep] at h
      exact ih h
    | error e =>
      rw [hstep] at h
      cases h

/-- a run that fails takes some tokens and fails at the next one -/
theorem steps_eq_error {r : Reader String} {ts : List Token} {e : ReadError}
    (h : r.steps ts = .error e) :
    ∃ us c vs r₁, ts = us ++ c :: vs ∧ r.steps us = .ok r₁ ∧ r₁.step c = .error e := by
  induction ts generalizing r with
  | nil => cases h
  | cons t ts ih =>
    rw [steps] at h
    cases hstep : r.step t with
    | ok r₁ =>
      rw [hstep] at h
      obtain ⟨us, c, vs, r₂, rfl, hus, hc⟩ := ih h
      exact ⟨t :: us, c, vs, r₂, rfl, (steps_cons hstep us).trans hus, hc⟩
    | error e' =>
      rw [hstep] at h
      cases h
      exact ⟨[], t, ts, r, rfl, rfl, hstep⟩

/-- only a closing bracket is refused: behind a sigil because of the sigil, else because of
itself -/
theorem step_eq_error {r : Reader String} {c : Token} {e : ReadError} (h : r.step c = .error e) :
    ∃ shape, c.kind = .closing shape ∧
      ((∃ mark start us, r.stack = .sigil mark start :: us ∧
          e = .danglingSigil mark ⟨start, start + 1⟩) ∨
        (∀ mark start us, r.stack ≠ .sigil mark start :: us) ∧
          e = .unexpectedClose shape c.span) := by
  unfold step at h
  split at h
  case h_2 shape hk =>
    refine ⟨shape, hk, ?_⟩
    unfold close at h
    split at h
    · rename_i hstack
      cases h
      refine .inr ⟨?_, rfl⟩
      rw [hstack]
      rintro mark start us ⟨⟩
    · rename_i mark start us hstack
      cases h
      exact .inl ⟨mark, start, us, hstack, rfl⟩
    · rename_i shape' start items us hstack
      split at h
      · cases h
      · cases h
        refine .inr ⟨?_, rfl⟩
        rw [hstack]
        rintro mark start us ⟨⟩
  all_goals cases h

end Reader

theorem viable_iff_steps (ts : List Token) : Viable ts ↔ ∃ r, Reader.empty.steps ts = .ok r := by
  constructor
  · rintro ⟨us, ps, hps⟩
    have hsteps := Reader.steps_tokensAll ps Reader.empty
    rw [← hps] at hsteps
    obtain ⟨r, hr, _⟩ := Reader.steps_append_eq_ok hsteps
    exact ⟨r, hr⟩
  · rintro ⟨r, hr⟩
    obtain ⟨s, htokens, _⟩ := Parsing.steps ⟨[], []⟩ hr
    have hts : s.tokens = ts := htokens
    rw [← hts]
    exact s.viable

/-- the derivations behind a reader that has taken the tokens `ts` -/
theorem exists_parsing {ts : List Token} {r : Reader String} (h : Reader.empty.steps ts = .ok r) :
    ∃ s : Parsing, s.tokens = ts ∧ s.reader = r := by
  obtain ⟨s, htokens, hreader⟩ := Parsing.steps ⟨[], []⟩ h
  exact ⟨s, htokens, hreader⟩

/-! ## the last token -/

/-- the tokens end with a sigil -/
def EndsWithSigil (ts : List Token) (t : Token) (mark : Sigil) : Prop :=
  ts.getLast? = some t ∧ t.kind = .sigil mark

theorem stack_of_endsWithSigil {ts : List Token} {t : Token} {mark : Sigil}
    (h : EndsWithSigil ts t mark) {r : Reader String} (hr : Reader.empty.steps ts = .ok r) :
    ∃ us, r.stack = .sigil mark t.span.start :: us := by
  obtain ⟨hlast, hk⟩ := h
  obtain ⟨us, rfl⟩ := List.getLast?_eq_some_iff.mp hlast
  obtain ⟨r₁, _, hlast⟩ := Reader.steps_append_eq_ok hr
  rw [Reader.steps_cons (Reader.step_sigil hk r₁)] at hlast
  cases hlast
  exact ⟨r₁.stack, rfl⟩

theorem endsWithSigil_of_stack {ts : List Token} {r : Reader String}
    (hr : Reader.empty.steps ts = .ok r) {mark : Sigil} {start : Nat} {us : List (Unfinished String)}
    (h : r.stack = .sigil mark start :: us) :
    ∃ t, EndsWithSigil ts t mark ∧ t.span.start = start := by
  obtain ⟨⟨os, ps⟩, rfl, rfl⟩ := exists_parsing hr
  cases os with
  | nil => cases h
  | cons o os =>
    cases o with
    | bracket shape t qs ht => cases h
    | sigil mark t ht =>
      cases h
      refine ⟨t, ⟨?_, ht⟩, rfl⟩
      rw [Parsing.tokens_cons]
      exact List.getLast?_concat

/-! ## unfinished terms -/

/-- the token starts a term of more than one token -/
def Token.Opens (t : Token) : Prop :=
  (∃ shape, t.kind = .opening shape) ∨ ∃ mark, t.kind = .sigil mark

/-- a whole datum stands at the front of the tokens -/
def StartsDatum (ts : List Token) : Prop := ∃ p : Phrase, p.tokens <+: ts

/-- the term that `o` starts does not end in the tokens `vs` behind it, and every term that a token
of `vs` starts does -/
structure InnermostUnfinished (o : Token) (vs : List Token) : Prop where
  opens : o.Opens
  unfinished : ¬StartsDatum (o :: vs)
  inner : ∀ us t ws, vs = us ++ t :: ws → t.Opens → StartsDatum (t :: ws)

theorem StartsDatum.append {ts : List Token} (h : StartsDatum ts) (us : List Token) :
    StartsDatum (ts ++ us) := by
  obtain ⟨p, hp⟩ := h
  exact ⟨p, hp.trans (List.prefix_append _ _)⟩

theorem not_opens_of_closing {t : Token} {shape : Delimiter} (h : t.kind = .closing shape) :
    ¬t.Opens := by
  rintro (⟨_, ht⟩ | ⟨_, ht⟩)
  · cases h.symm.trans ht
  · cases h.symm.trans ht

namespace Phrase

mutual

/-- every term that starts inside a derivation ends inside it -/
theorem startsDatum_of_tokens : ∀ (p : Phrase) {us ws : List Token} {t : Token},
    p.tokens = us ++ t :: ws → t.Opens → StartsDatum (t :: ws)
  | p, [], ws, t, h, _ => ⟨p, by rw [h]; exact List.prefix_rfl⟩
  | .atom t' d hd, u :: us, ws, t, h, _ => by
    rw [tokens] at h
    simp at h
  | .bracket shape t' ps c ht hc, u :: us, ws, t, h, hopens => by
    rw [tokens, List.cons_append] at h
    obtain ⟨_, h⟩ := List.cons.inj h
    rcases List.append_eq_append_iff.mp h with ⟨xs, rfl, hlast⟩ | ⟨xs, hps, hlast⟩
    · -- the token would be the closing bracket
      have hmem : t ∈ [c] := by
        rw [hlast]
        exact List.mem_append_right _ List.mem_cons_self
      rw [List.mem_singleton.mp hmem] at hopens
      exact absurd hopens (not_opens_of_closing hc)
    · cases xs with
      | nil =>
        obtain ⟨rfl, _⟩ := List.cons.inj hlast
        exact absurd hopens (not_opens_of_closing hc)
      | cons x xs =>
        obtain ⟨rfl, rfl⟩ := List.cons.inj hlast
        exact (startsDatum_of_tokensAll ps hps hopens).append [c]
  | .sigil mark t' p ht, u :: us, ws, t, h, hopens => by
    rw [tokens, List.cons_append] at h
    exact startsDatum_of_tokens p (List.cons.inj h).2 hopens

theorem startsDatum_of_tokensAll : ∀ (ps : List Phrase) {us ws : List Token} {t : Token},
    tokensAll ps = us ++ t :: ws → t.Opens → StartsDatum (t :: ws)
  | [], us, ws, t, h, _ => by
    rw [tokensAll] at h
    simp at h
  | p :: ps, us, ws, t, h, hopens => by
    rw [tokensAll] at h
    rcases List.append_eq_append_iff.mp h with ⟨xs, rfl, hps⟩ | ⟨xs, hp, hxs⟩
    · exact startsDatum_of_tokensAll ps hps hopens
    · cases xs with
      | nil =>
        have hps : tokensAll ps = [] ++ t :: ws := hxs.symm
        exact startsDatum_of_tokensAll ps hps hopens
      | cons x xs =>
        obtain ⟨rfl, rfl⟩ := List.cons.inj hxs
        exact (startsDatum_of_tokens p hp hopens).append _

end

end Phrase

/-- an open bracket with whole datums behind it -/
theorem innermostUnfinished_bracket {o : Token} {shape : Delimiter} (ho : o.kind = .opening shape)
    (ps : List Phrase) : InnermostUnfinished o (tokensAll ps) := by
  refine ⟨.inl ⟨shape, ho⟩, ?_, fun us t ws h ht => startsDatum_of_tokensAll ps h ht⟩
  rintro ⟨q, xs, hq⟩
  cases q with
  | atom t d hd =>
    obtain ⟨rfl, _⟩ := List.cons.inj hq
    cases hd.symm.trans (atom?_of_opening ho)
  | sigil mark t q ht =>
    obtain ⟨rfl, _⟩ := List.cons.inj hq
    cases ho.symm.trans ht
  | bracket shape' t qs c ht hc =>
    -- its closing bracket would have to be among the datums
    rw [tokens, List.cons_append, List.append_assoc] at hq
    obtain ⟨_, hitems⟩ := List.cons.inj hq
    have hnil : Ended [] := by
      rintro t ⟨⟩
    obtain ⟨_, hrest⟩ := tokensAll_append_inj qs ps (ended_closing hc xs) hnil
      (hitems.trans (List.append_nil _).symm)
    cases hrest

/-- a sigil at the end -/
theorem innermostUnfinished_sigil {t : Token} {mark : Sigil} (ht : t.kind = .sigil mark) :
    InnermostUnfinished t [] := by
  refine ⟨.inr ⟨mark, ht⟩, ?_, ?_⟩
  · rintro ⟨q, xs, hq⟩
    cases q with
    | atom u d hd =>
      obtain ⟨rfl, _⟩ := List.cons.inj hq
      cases hd.symm.trans (atom?_of_sigil ht)
    | bracket shape u qs c hu hc =>
      obtain ⟨rfl, _⟩ := List.cons.inj hq
      cases ht.symm.trans hu
    | sigil mark' u q hu =>
      obtain ⟨_, hterm⟩ := List.cons.inj hq
      exact q.tokens_ne_nil (List.append_eq_nil_iff.mp hterm).1
  · intro us u ws h
    simp at h

/-! ## refusals -/

/-- the ways in which tokens are refused -/
inductive Rejection : List Token → ReadError → Prop
  /-- a closing bracket comes right behind a sigil -/
  | sigilClosed {us vs : List Token} {t c : Token} {mark : Sigil} {shape : Delimiter} :
      Viable us → ¬Viable (us ++ [c]) → EndsWithSigil us t mark → c.kind = .closing shape →
      Rejection (us ++ c :: vs) (.danglingSigil mark ⟨t.span.start, t.span.start + 1⟩)
  /-- a closing bracket does not belong there -/
  | strayClosing {us vs : List Token} {c : Token} {shape : Delimiter} :
      Viable us → ¬Viable (us ++ [c]) → (∀ t mark, ¬EndsWithSigil us t mark) →
      c.kind = .closing shape → Rejection (us ++ c :: vs) (.unexpectedClose shape c.span)
  /-- the tokens end with a sigil -/
  | sigilAtEnd {us : List Token} {t : Token} {mark : Sigil} :
      Viable (us ++ [t]) → t.kind = .sigil mark → InnermostUnfinished t [] →
      Rejection (us ++ [t]) (.danglingSigil mark ⟨t.span.start, t.span.start + 1⟩)
  /-- a bracket is open at the end -/
  | unclosed {us vs : List Token} {o : Token} {shape : Delimiter} :
      Viable (us ++ o :: vs) → o.kind = .opening shape → InnermostUnfinished o vs →
      Rejection (us ++ o :: vs) (.unclosed shape ⟨o.span.start, o.span.start + 1⟩)

/-- a refusal at a token -/
theorem rejection_of_step {us : List Token} {r : Reader String} (hr : Reader.empty.steps us = .ok r)
    {c : Token} {e : ReadError} (h : r.step c = .error e) (vs : List Token) :
    Rejection (us ++ c :: vs) e := by
  have hviable : Viable us := (viable_iff_steps us).mpr ⟨r, hr⟩
  have hfault : ¬Viable (us ++ [c]) := by
    rw [viable_iff_steps]
    rintro ⟨r', hr'⟩
    rw [Reader.steps_append hr, Reader.steps, h] at hr'
    cases hr'
  obtain ⟨shape, hk, ⟨mark, start, rest, hstack, rfl⟩ | ⟨hstack, rfl⟩⟩ := Reader.step_eq_error h
  · obtain ⟨t, ht, rfl⟩ := endsWithSigil_of_stack hr hstack
    exact .sigilClosed hviable hfault ht hk
  · refine .strayClosing hviable hfault ?_ hk
    intro t mark ht
    obtain ⟨rest, hrest⟩ := stack_of_endsWithSigil ht hr
    exact hstack _ _ _ hrest

/-- a refusal at the end -/
theorem rejection_of_finish {ts : List Token} {r : Reader String}
    (hr : Reader.empty.steps ts = .ok r)
    {e : ReadError} (h : r.finish = .error e) : Rejection ts e := by
  have hviable : Viable ts := (viable_iff_steps ts).mpr ⟨r, hr⟩
  obtain ⟨⟨os, ps⟩, rfl, rfl⟩ := exists_parsing hr
  cases os with
  | nil => cases h
  | cons o os =>
    rw [Parsing.tokens_cons] at hviable ⊢
    cases o with
    | sigil mark t ht =>
      cases h
      exact .sigilAtEnd hviable ht (innermostUnfinished_sigil ht)
    | bracket shape t qs ht =>
      cases h
      exact .unclosed hviable ht (innermostUnfinished_bracket ht qs)

theorem rejection_of_readTokens {ts : List Token} {e : ReadError}
    (h : readTokens ts = .error e) : Rejection ts e := by
  unfold readTokens at h
  split at h
  · rename_i r hr
    exact rejection_of_finish hr h
  · rename_i e' he
    cases h
    obtain ⟨us, c, vs, r, rfl, hr, hc⟩ := Reader.steps_eq_error he
    exact rejection_of_step hr hc vs

/-! ## the first fault -/

/-- `us` and then `c` are the shortest beginning of `ts` that is not viable -/
structure FirstFault (ts us : List Token) (c : Token) : Prop where
  beginning : us ++ [c] <+: ts
  not_viable : ¬Viable (us ++ [c])
  shortest : ∀ vs, vs <+: ts → ¬Viable vs → (us ++ [c]).length ≤ vs.length

theorem firstFault_of_viable {us vs : List Token} {c : Token} (hus : Viable us)
    (hc : ¬Viable (us ++ [c])) : FirstFault (us ++ c :: vs) us c := by
  have hbeginning : us ++ [c] <+: us ++ c :: vs := ⟨vs, by rw [List.append_assoc]; rfl⟩
  refine ⟨hbeginning, hc, ?_⟩
  intro ws hws hfault
  rw [List.length_append, List.length_singleton]
  rcases Nat.lt_or_ge us.length ws.length with hlong | hshort
  · exact hlong
  · -- no longer than `us`, it is a beginning of `us`
    have hpre := List.prefix_of_prefix_length_le hws (List.prefix_append us (c :: vs)) hshort
    exact absurd (hus.of_prefix hpre) hfault

/-- **The reader reports the earliest error.**  If some beginning of the tokens cannot be continued,
the shortest one ends with a closing bracket, and the error is about the sigil right before it or,
without one, about that bracket.  Otherwise the error is about the innermost unfinished term. -/
theorem readTokens_reports_first_fault {ts : List Token} {e : ReadError}
    (h : readTokens ts = .error e) :
    ((∃ us, us <+: ts ∧ ¬Viable us) → ∃ us c shape, FirstFault ts us c ∧ c.kind = .closing shape ∧
      ((∃ t mark, EndsWithSigil us t mark ∧
          e = .danglingSigil mark ⟨t.span.start, t.span.start + 1⟩) ∨
        (∀ t mark, ¬EndsWithSigil us t mark) ∧ e = .unexpectedClose shape c.span)) ∧
    ((∀ us, us <+: ts → Viable us) → ∃ us o vs, ts = us ++ o :: vs ∧ InnermostUnfinished o vs ∧
      ((∃ shape, o.kind = .opening shape ∧
          e = .unclosed shape ⟨o.span.start, o.span.start + 1⟩) ∨
        ∃ mark, o.kind = .sigil mark ∧ vs = [] ∧
          e = .danglingSigil mark ⟨o.span.start, o.span.start + 1⟩)) := by
  cases rejection_of_readTokens h with
  | @sigilClosed us vs t c mark shape hus hc ht hk =>
    refine ⟨fun _ => ⟨us, c, shape, firstFault_of_viable hus hc, hk, .inl ⟨t, mark, ht, rfl⟩⟩, ?_⟩
    intro hall
    exact absurd (hall _ (firstFault_of_viable hus hc).beginning) hc
  | @strayClosing us vs c shape hus hc hlast hk =>
    refine ⟨fun _ => ⟨us, c, shape, firstFault_of_viable hus hc, hk, .inr ⟨hlast, rfl⟩⟩, ?_⟩
    intro hall
    exact absurd (hall _ (firstFault_of_viable hus hc).beginning) hc
  | @sigilAtEnd us t mark hviable ht hinner =>
    refine ⟨?_, fun _ => ⟨us, t, [], rfl, hinner, .inr ⟨mark, ht, rfl, rfl⟩⟩⟩
    rintro ⟨ws, hws, hfault⟩
    exact absurd (hviable.of_prefix hws) hfault
  | @unclosed us vs o shape hviable ho hinner =>
    refine ⟨?_, fun _ => ⟨us, o, vs, rfl, hinner, .inl ⟨shape, ho, rfl⟩⟩⟩
    rintro ⟨ws, hws, hfault⟩
    exact absurd (hviable.of_prefix hws) hfault

/-- a sigil of two bytes in front of a closing bracket -/
theorem readTokens_reports_first_fault_behind_splice :
    let ts : List Token := [⟨.opening .round, ⟨0, 1⟩⟩, ⟨.sigil .splice, ⟨1, 3⟩⟩,
      ⟨.closing .round, ⟨3, 4⟩⟩]
    let e : ReadError := .danglingSigil .splice ⟨1, 2⟩
    readTokens ts = .error e ∧ ¬Viable ts ∧
      ∃ us c shape, FirstFault ts us c ∧ c.kind = .closing shape ∧
        ((∃ t mark, EndsWithSigil us t mark ∧
            e = .danglingSigil mark ⟨t.span.start, t.span.start + 1⟩) ∨
          (∀ t mark, ¬EndsWithSigil us t mark) ∧ e = .unexpectedClose shape c.span) := by
  intro ts e
  have hread : readTokens ts = .error e := rfl
  have hfault : ¬Viable ts := by
    rw [viable_iff_steps]
    rintro ⟨r, ⟨⟩⟩
  exact ⟨hread, hfault,
    (readTokens_reports_first_fault hread).1 ⟨ts, List.prefix_rfl, hfault⟩⟩

end TraceFront
