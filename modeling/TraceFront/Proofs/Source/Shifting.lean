import TraceFront.Proofs.Datum.Grammar
import TraceFront.Proofs.Expr.Places
import TraceFront.Proofs.Token.Grammar

/-!
# A text is read alike wherever it starts

A text that starts `n` bytes further on has the same tokens, datums and errors, each `n` bytes
further on, as long as the text ends at an offset that a span can hold.

* `Span.shift`        the span `n` bytes further on;
* `carried`           an outcome whose value or error is carried over;
* `lexFrom_shift`     the tokens of a text that starts further on;
* `readTokens_shift`  the datums of tokens that stand further on, and `readTokens_append` those of
                      tokens that also have others before them.
-/

namespace TraceFront

open Text

/-- the span `n` bytes further on -/
def Span.shift (n : Nat) (s : Span) : Span := ⟨s.start + n, s.stop + n⟩

theorem Span.ofRange_shift {n start stop : Nat} (hstart : start + n ≤ maxOffset)
    (hstop : stop + n ≤ maxOffset) :
    ofRange (start + n) (stop + n) = (ofRange start stop).shift n := by
  rw [ofRange_of_le hstart hstop, ofRange_of_le (by omega) (by omega)]
  rfl

/-- the outcome with its value, or its error, carried over -/
def carried {ε ε' α β : Type} (e : ε → ε') (g : α → β) : Except ε α → Except ε' β
  | .ok a => .ok (g a)
  | .error x => .error (e x)

theorem carried_bind {ε ε' α β γ δ : Type} {e : ε → ε'} {g : α → β} {h : γ → δ} {x : Except ε α}
    {y : Except ε' β} {f : α → Except ε γ} {k : β → Except ε' δ} (hy : y = carried e g x)
    (hk : ∀ a, k (g a) = carried e h (f a)) : (y >>= k) = carried e h (x >>= f) := by
  cases x with
  | ok a =>
    rw [hy]
    exact hk a
  | error x =>
    rw [hy]
    rfl

/-- the error at another place -/
def LexError.relocate (σ : Span → Span) : LexError → LexError
  | unterminatedString s => unterminatedString (σ s)
  | invalidEscape c s => invalidEscape c (σ s)
  | invalidNumber t s => invalidNumber t (σ s)

def Token.relocate (σ : Span → Span) (t : Token) : Token := ⟨t.kind, σ t.span⟩

/-- the rest of a source that starts `n` bytes further on -/
def Cursor.shift (n : Nat) (p : Cursor) : Cursor := ⟨p.offset + n, p.rest⟩

/-! ## one token -/

theorem skipBlanks_shift (n : Nat) (cs : List Char) : ∀ (comment : Bool) (offset : Nat),
    skipBlanks comment (offset + n) cs = (skipBlanks comment offset cs).shift n := by
  induction cs with
  | nil =>
    intro comment offset
    rfl
  | cons c cs ih =>
    intro comment offset
    have hnext : offset + n + c.utf8Size = offset + c.utf8Size + n := by omega
    unfold skipBlanks
    rw [hnext]
    split
    · exact ih _ _
    split
    · exact ih _ _
    split
    · exact ih _ _
    · rfl

/-- what the lexer returns for one token, `n` bytes further on -/
def shiftStep (n : Nat) (r : Token × Cursor) : Token × Cursor :=
  (r.1.relocate (Span.shift n), r.2.shift n)

theorem stringBody_shift (n : Nat) {start offset : Nat} {read cs : List Char}
    (hstart : start ≤ offset) (hsize : offset + byteLength cs + n ≤ Span.maxOffset) :
    stringBody (start + n) (offset + n) read cs =
      carried (LexError.relocate (Span.shift n)) (fun r => (r.1, r.2.shift n))
        (stringBody start offset read cs) := by
  fun_induction stringBody start offset read cs with
  | case1 offset read =>
    have hspan : Span.ofRange (start + n) (offset + n) = (Span.ofRange start offset).shift n :=
      Span.ofRange_shift (by omega) (by rw [byteLength_nil] at hsize; omega)
    rw [stringBody, hspan]
    rfl
  | case2 offset read cs =>
    have hnext : offset + n + 1 = offset + 1 + n := by omega
    rw [stringBody.eq_def]
    simp only [if_pos trivial, hnext]
    rfl
  | case3 offset read =>
    have hlength : byteLength ['\\'] = 1 := rfl
    have hnext : offset + n + 1 = offset + 1 + n := by omega
    have hspan : Span.ofRange (start + n) (offset + 1 + n) =
        (Span.ofRange start (offset + 1)).shift n := Span.ofRange_shift (by omega) (by omega)
    rw [stringBody.eq_def]
    simp only [hnext, hspan]
    rfl
  | case4 offset read e cs d he _ ih =>
    have hlength : byteLength ('\\' :: e :: cs) = 1 + (e.utf8Size + byteLength cs) := rfl
    have hnext : offset + n + 1 + e.utf8Size = offset + 1 + e.utf8Size + n := by omega
    rw [← ih (by omega) (by omega), stringBody.eq_def, ← hnext]
    simp only [he]
    rw [if_neg (by decide), if_pos trivial]
  | case5 offset read e cs he _ =>
    have hlength : byteLength ('\\' :: e :: cs) = 1 + (e.utf8Size + byteLength cs) := rfl
    have hnext : offset + n + 1 + e.utf8Size = offset + 1 + e.utf8Size + n := by omega
    have hspan : Span.ofRange (offset + n) (offset + 1 + e.utf8Size + n) =
        (Span.ofRange offset (offset + 1 + e.utf8Size)).shift n :=
      Span.ofRange_shift (by omega) (by omega)
    rw [stringBody.eq_def]
    simp only [he, hnext, hspan]
    rfl
  | case6 offset read c cs hquote hslash ih =>
    rw [byteLength_cons] at hsize
    have hnext : offset + n + c.utf8Size = offset + c.utf8Size + n := by omega
    rw [← ih (by omega) (by omega), stringBody.eq_def, ← hnext]
    simp only [if_neg hquote, if_neg hslash]

theorem stringToken_shift (n : Nat) {offset : Nat} {cs : List Char}
    (hsize : offset + 1 + byteLength cs + n ≤ Span.maxOffset) :
    stringToken (offset + n) cs =
      carried (LexError.relocate (Span.shift n)) (shiftStep n) (stringToken offset cs) := by
  have hbody : stringBody (offset + n) (offset + 1 + n) [] cs = carried _ _ _ :=
    stringBody_shift n (Nat.le_succ offset) hsize
  have hnext : offset + n + 1 = offset + 1 + n := by omega
  rw [stringToken, stringToken, hnext, hbody]
  cases hb : stringBody offset (offset + 1) [] cs with
  | error e => rfl
  | ok r =>
    obtain ⟨value, after⟩ := r
    obtain ⟨text, _, hcs, _, _, hafter⟩ := stringText_of_stringBody hb
    rw [hcs, byteLength_append] at hsize
    have hspan : Span.ofRange (offset + n) (after.offset + n) =
        (Span.ofRange offset after.offset).shift n := Span.ofRange_shift (by omega) (by omega)
    show Except.ok
      (Token.mk (.str value) (Span.ofRange (offset + n) (after.offset + n)), after.shift n) = _
    rw [hspan]
    rfl

theorem classify_relocate (σ : Span → Span) (text : List Char) (span : Span) :
    classify text (σ span) = carried (LexError.relocate σ) id (classify text span) := by
  unfold classify
  split
  · split
    · rfl
    · rfl
  · split
    · split
      · rfl
      · rfl
    · rfl

theorem atomToken_shift (n : Nat) {offset : Nat} {cs : List Char}
    (hsize : offset + byteLength cs + n ≤ Span.maxOffset) :
    atomToken (offset + n) cs =
      carried (LexError.relocate (Span.shift n)) (shiftStep n) (atomToken offset cs) := by
  have hlength : byteLength cs = byteLength (cs.takeWhile isAtomChar) +
      byteLength (cs.dropWhile isAtomChar) := by
    rw [← byteLength_append, List.takeWhile_append_dropWhile]
  have hnext : offset + n + byteLength (cs.takeWhile isAtomChar) =
      offset + byteLength (cs.takeWhile isAtomChar) + n := by omega
  have hspan : Span.ofRange (offset + n) (offset + byteLength (cs.takeWhile isAtomChar) + n) =
      (Span.ofRange offset (offset + byteLength (cs.takeWhile isAtomChar))).shift n :=
    Span.ofRange_shift (by omega) (by omega)
  simp only [atomToken, hnext, hspan, classify_relocate]
  cases classify (cs.takeWhile isAtomChar)
      (.ofRange offset (offset + byteLength (cs.takeWhile isAtomChar))) with
  | ok kind => rfl
  | error e => rfl

theorem markToken_shift (n : Nat) {offset width : Nat} (kind : TokenKind) (rest : List Char)
    (hsize : offset + width + n ≤ Span.maxOffset) :
    markToken (offset + n) kind width rest = shiftStep n (markToken offset kind width rest) := by
  have hnext : offset + n + width = offset + width + n := by omega
  have hspan : Span.ofRange (offset + n) (offset + width + n) =
      (Span.ofRange offset (offset + width)).shift n := Span.ofRange_shift (by omega) (by omega)
  rw [markToken, hnext, hspan]
  rfl

theorem tokenAt_shift (n : Nat) {offset : Nat} {c : Char} {cs : List Char}
    (hsize : offset + byteLength (c :: cs) + n ≤ Span.maxOffset) :
    tokenAt (offset + n) c cs =
      carried (LexError.relocate (Span.shift n)) (shiftStep n) (tokenAt offset c cs) := by
  have hc := c.utf8Size_pos
  have hmark : ∀ (kind : TokenKind) (rest : List Char), markToken (offset + n) kind 1 rest =
      shiftStep n (markToken offset kind 1 rest) := by
    intro kind rest
    rw [byteLength_cons] at hsize
    exact markToken_shift n kind rest (by omega)
  unfold tokenAt
  split
  · rw [hmark]
    rfl
  split
  · rw [hmark]
    rfl
  split
  · rw [hmark]
    rfl
  split
  · rw [hmark]
    rfl
  split
  · split
    · rename_i hat
      obtain ⟨ds, rfl⟩ : ∃ ds, cs = '@' :: ds := List.head?_eq_some_iff.mp hat
      have hlength : byteLength (c :: '@' :: ds) = c.utf8Size + (1 + byteLength ds) := rfl
      rw [markToken_shift n _ _ (by omega)]
      rfl
    · rw [hmark]
      rfl
  split
  · rename_i hquote
    have hlength : byteLength (c :: cs) = 1 + byteLength cs := by
      rw [hquote]
      rfl
    exact stringToken_shift n (by omega)
  · exact atomToken_shift n hsize

theorem nextToken_shift (n : Nat) {p : Cursor}
    (hsize : p.offset + byteLength p.rest + n ≤ Span.maxOffset) :
    nextToken (p.shift n) =
      (nextToken p).map (carried (LexError.relocate (Span.shift n)) (shiftStep n)) := by
  obtain ⟨gap, rest, hrest, hskip, _⟩ := gap_of_skipBlanks p.rest false p.offset
  have hskip' : skipBlanks false (p.shift n).offset (p.shift n).rest =
      ⟨p.offset + byteLength gap + n, rest⟩ := by
    show skipBlanks false (p.offset + n) p.rest = _
    rw [skipBlanks_shift, hskip]
    rfl
  rw [hrest, byteLength_append] at hsize
  rw [nextToken, nextToken, hskip, hskip']
  cases rest with
  | nil => rfl
  | cons c cs => exact congrArg some (tokenAt_shift n (by omega))

/-! ## all tokens -/

/-- a token takes its bytes from the text -/
theorem length_of_nextToken {p q : Cursor} {t : Token} (h : nextToken p = some (.ok (t, q))) :
    q.offset + byteLength q.rest = p.offset + byteLength p.rest := by
  obtain ⟨gap, text, k, hrest, _, _, _, htq⟩ := spells_of_nextToken h
  have hq : q.offset = p.offset + byteLength gap + byteLength text :=
    congrArg Cursor.offset (Prod.mk.inj htq).2
  rw [hq, hrest, byteLength_append, byteLength_append]
  omega

/-- the tokens of a text that starts `n` bytes further on -/
theorem lexFrom_shift (n : Nat) (p : Cursor)
    (hsize : p.offset + byteLength p.rest + n ≤ Span.maxOffset) :
    lexFrom (p.shift n) =
      carried (LexError.relocate (Span.shift n)) (List.map (Token.relocate (Span.shift n)))
        (lexFrom p) := by
  fun_induction lexFrom p with
  | case1 p hnone =>
    rw [lexFrom_eq, nextToken_shift n hsize, hnone]
    rfl
  | case2 p e herror =>
    rw [lexFrom_eq, nextToken_shift n hsize, herror]
    rfl
  | case3 p t q hnext ts hts ih =>
    have hrest := ih (by rw [length_of_nextToken hnext]; exact hsize)
    rw [lexFrom_eq, nextToken_shift n hsize, hnext]
    show (lexFrom (q.shift n)).map _ = _
    rw [hrest, hts]
    rfl
  | case4 p t q hnext e he ih =>
    have hrest := ih (by rw [length_of_nextToken hnext]; exact hsize)
    rw [lexFrom_eq, nextToken_shift n hsize, hnext]
    show (lexFrom (q.shift n)).map _ = _
    rw [hrest, he]
    rfl

/-! ## datums -/

def ReadError.relocate (σ : Span → Span) : ReadError → ReadError
  | unclosed shape s => unclosed shape (σ s)
  | unexpectedClose shape s => unexpectedClose shape (σ s)
  | danglingSigil mark s => danglingSigil mark (σ s)

def Datum.shift (n : Nat) (d : Datum String) : Datum String := d.relocate (Span.shift n)

theorem Datum.shift_bracket (n : Nat) (shape : Delimiter) (ds : List (Datum String)) (s : Span) :
    (shape.datum ds s).shift n = shape.datum (ds.map (Datum.shift n)) (s.shift n) := by
  cases shape with
  | round => exact congrArg (Datum.list · (s.shift n)) (relocateAll_eq_map _ ds)
  | square => exact congrArg (Datum.vector · (s.shift n)) (relocateAll_eq_map _ ds)

theorem Datum.shift_wrap (n : Nat) (mark : Sigil) (start : Nat) (d : Datum String) :
    (mark.wrap start d).shift n = mark.wrap (start + n) (d.shift n) := by
  have hstop : (d.shift n).span.stop = d.span.stop + n := by
    rw [Datum.shift, span_relocate]
    rfl
  rw [Sigil.wrap, Sigil.wrap, headed, headed, hstop]
  rfl

theorem Token.atom?_relocate (σ : Span → Span) (t : Token) :
    (t.relocate σ).atom? = t.atom?.map (Datum.relocate σ) := by
  obtain ⟨kind, span⟩ := t
  cases kind with
  | symbol s =>
    show some (Datum.ofSymbol s (σ span)) = some ((Datum.ofSymbol s span).relocate σ)
    unfold Datum.ofSymbol
    split
    · rfl
    split
    · rfl
    split
    · rfl
    · rfl
  | _ => rfl

def Unfinished.shift (n : Nat) : Unfinished String → Unfinished String
  | bracket shape start ds => bracket shape (start + n) (ds.map (Datum.shift n))
  | sigil mark start => sigil mark (start + n)

theorem Unfinished.error_shift (n : Nat) (u : Unfinished String) :
    (u.shift n).error = u.error.relocate (Span.shift n) := by
  have hnext : ∀ start, (⟨start + n, start + n + 1⟩ : Span) = Span.shift n ⟨start, start + 1⟩ := by
    intro start
    rw [Span.shift, Nat.add_right_comm]
  cases u with
  | bracket shape start ds => exact congrArg (ReadError.unclosed shape) (hnext start)
  | sigil mark start => exact congrArg (ReadError.danglingSigil mark) (hnext start)

namespace Reader

/-- the reader `n` bytes further on, which has read the datums `old` before -/
def shift (n : Nat) (old : List (Datum String)) (r : Reader String) : Reader String :=
  ⟨r.stack.map (Unfinished.shift n), r.done.map (Datum.shift n) ++ old⟩

section
variable (n : Nat) (old : List (Datum String))

theorem place_shift (done : List (Datum String)) (us : List (Unfinished String)) : ∀ d :
    Datum String,
    place (done.map (Datum.shift n) ++ old) (d.shift n) (us.map (Unfinished.shift n)) =
      (place done d us).shift n old := by
  induction us with
  | nil =>
    intro d
    rfl
  | cons u us ih =>
    intro d
    cases u with
    | sigil mark start =>
      show place (done.map (Datum.shift n) ++ old) (mark.wrap (start + n) (d.shift n)) _ = _
      rw [← Datum.shift_wrap, ih]
      rfl
    | bracket shape start ds => rfl

theorem close_shift (r : Reader String) (shape : Delimiter) (span : Span) :
    (r.shift n old).close shape (span.shift n) =
      carried (ReadError.relocate (Span.shift n)) (shift n old) (r.close shape span) := by
  obtain ⟨stack, done⟩ := r
  cases stack with
  | nil => rfl
  | cons u us =>
    cases u with
    | sigil mark start => exact congrArg Except.error ((Unfinished.sigil mark start).error_shift n)
    | bracket shape' start ds =>
      show (if shape = shape' then _ else _) = carried _ _ (if shape = shape' then _ else _)
      split
      · refine congrArg Except.ok ?_
        have hdatum : shape.datum (ds.map (Datum.shift n)).reverse ⟨start + n, span.stop + n⟩ =
            (shape.datum ds.reverse ⟨start, span.stop⟩).shift n := by
          rw [Datum.shift_bracket, List.map_reverse]
          rfl
        show place (done.map (Datum.shift n) ++ old)
          (shape.datum (ds.map (Datum.shift n)).reverse ⟨start + n, span.stop + n⟩) _ = _
        rw [hdatum]
        exact place_shift n old done us _
      · rfl

theorem step_shift (r : Reader String) (t : Token) :
    (r.shift n old).step (t.relocate (Span.shift n)) =
      carried (ReadError.relocate (Span.shift n)) (shift n old) (r.step t) := by
  have hatom : ∀ d, t.atom? = some d → (r.shift n old).step (t.relocate (Span.shift n)) =
      carried (ReadError.relocate (Span.shift n)) (shift n old) (r.step t) := by
    intro d hd
    have hd' : (t.relocate (Span.shift n)).atom? = some (d.shift n) := by
      rw [Token.atom?_relocate, hd]
      rfl
    rw [step_atom hd, step_atom hd']
    exact congrArg Except.ok (place_shift n old r.done r.stack d)
  obtain ⟨kind, span⟩ := t
  cases kind with
  | opening shape => rfl
  | closing shape => exact close_shift n old r shape span
  | sigil mark => rfl
  | str s => exact hatom _ rfl
  | int i => exact hatom _ rfl
  | float x => exact hatom _ rfl
  | keyword k => exact hatom _ rfl
  | symbol s => exact hatom _ rfl

theorem steps_shift (ts : List Token) : ∀ r : Reader String,
    (r.shift n old).steps (ts.map (Token.relocate (Span.shift n))) =
      carried (ReadError.relocate (Span.shift n)) (shift n old) (r.steps ts) := by
  induction ts with
  | nil =>
    intro r
    rfl
  | cons t ts ih =>
    intro r
    rw [List.map_cons, steps, steps, step_shift]
    cases r.step t with
    | ok r' => exact ih r'
    | error e => rfl

theorem finish_shift (r : Reader String) : (r.shift n old).finish =
    carried (ReadError.relocate (Span.shift n)) (fun ds => old.reverse ++ ds.map (Datum.shift n))
      r.finish := by
  obtain ⟨stack, done⟩ := r
  cases stack with
  | nil =>
    show Except.ok (done.map (Datum.shift n) ++ old).reverse =
      Except.ok (old.reverse ++ done.reverse.map (Datum.shift n))
    rw [List.reverse_append, List.map_reverse]
  | cons u us => exact congrArg Except.error (u.error_shift n)

theorem finish_eq_ok {r : Reader String} {ds : List (Datum String)} (h : r.finish = .ok ds) :
    r = empty.shift n ds.reverse := by
  obtain ⟨stack, done⟩ := r
  cases stack with
  | nil =>
    have hds : done.reverse = ds := Except.ok.inj h
    rw [← hds, List.reverse_reverse]
    rfl
  | cons u us => cases h

end

end Reader

/-- tokens after the tokens of whole datums, from another source and `n` bytes further on -/
theorem readTokens_append {ts : List Token} {ds : List (Datum String)} (h : readTokens ts = .ok ds)
    (n : Nat) (us : List Token) : readTokens (ts ++ us.map (Token.relocate (Span.shift n))) =
      carried (ReadError.relocate (Span.shift n)) (fun es => ds ++ es.map (Datum.shift n))
        (readTokens us) := by
  rw [readTokens] at h
  split at h
  · rename_i r hr
    -- nothing is open when the first tokens have been read
    have hempty := Reader.finish_eq_ok n h
    rw [readTokens, Reader.steps_append hr, hempty, Reader.steps_shift, readTokens]
    cases Reader.empty.steps us with
    | ok r' =>
      have hfinish := Reader.finish_shift n ds.reverse r'
      rw [List.reverse_reverse] at hfinish
      exact hfinish
    | error e => rfl
  · cases h

/-- the datums of tokens that stand `n` bytes further on -/
theorem readTokens_shift (n : Nat) (ts : List Token) :
    readTokens (ts.map (Token.relocate (Span.shift n))) =
      carried (ReadError.relocate (Span.shift n)) (List.map (Datum.shift n)) (readTokens ts) := by
  have hnone : readTokens [] = .ok [] := rfl
  exact readTokens_append hnone n ts

end TraceFront
