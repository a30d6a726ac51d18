import TraceFront.Proofs.Compile.Places
import TraceFront.Proofs.Session.History
import TraceFront.Proofs.Token.Tiling

/-!
# One source behind another

A newline ends every token and every comment, a source that compiles leaves no bracket open and no
sigil waiting, and forms are compiled one by one.  So two sources with a newline between them
compile like the first alone and then the second alone, with the places of the second one moved
on.

* `lexFrom_append`          the tokens of a text, a newline and another text,
* `read_append`             the datums,
* `parse_append`            the expressions
* `compile_append`          and the forms of such a source;
* `compile_concatenation`   the forms that sessions give, whatever each of them has met before.

Each of these takes a first source that goes through the step.  An error of the second source is then
the first error of the two together, since no earlier step has found one in either.
-/

namespace TraceFront

open Text

/-! ## tokens -/

theorem lexFrom_gap {gap : List Char} (h : Gap False gap) (offset : Nat) (cs : List Char) :
    lexFrom ⟨offset, gap ++ cs⟩ = lexFrom ⟨offset + byteLength gap, cs⟩ := by
  rw [lexFrom_eq, nextToken_gap h, ← lexFrom_eq]

/-- the newline ends the last token, or the comment behind it -/
theorem lexFrom_append {offset : Nat} {cs : List Char} {ts : List Token} (h : Tiles offset cs ts)
    (ds : List Char) : lexFrom ⟨offset, cs ++ '\n' :: ds⟩ =
      (lexFrom ⟨offset + byteLength cs + 1, ds⟩).map (ts ++ ·) := by
  induction h with
  | @last offset gap hgap =>
    have hsplit : gap ++ '\n' :: ds = (gap ++ ['\n']) ++ ds := by simp
    have hlength : offset + byteLength (gap ++ ['\n']) = offset + byteLength gap + 1 := by
      rw [byteLength_append]
      rfl
    rw [hsplit, lexFrom_gap hgap.newline, hlength]
    cases lexFrom ⟨offset + byteLength gap + 1, ds⟩ with
    | ok us => rfl
    | error e => rfl
  | @token offset gap text rest k ts hgap hspells hends _ ih =>
    have hlength : offset + byteLength (gap ++ (text ++ rest)) =
        offset + byteLength gap + byteLength text + byteLength rest := by
      rw [byteLength_append, byteLength_append]
      omega
    rw [List.append_assoc, List.append_assoc, lexFrom_gap hgap, lexFrom_eq,
      nextToken_of_spells hspells (hends.append_newline ds), hlength]
    show (lexFrom ⟨offset + byteLength gap + byteLength text, rest ++ '\n' :: ds⟩).map _ = _
    rw [ih]
    cases lexFrom ⟨offset + byteLength gap + byteLength text + byteLength rest + 1, ds⟩ with
    | ok us => rfl
    | error e => rfl

theorem lex_append {a b : String} (hsize : (a ++ "\n" ++ b).utf8ByteSize < 2 ^ 32) {ts : List Token}
    (h : lex a = .ok ts) : lex (a ++ "\n" ++ b) =
      carried (LexError.relocate (Span.shift (a.utf8ByteSize + 1)))
        (fun us => ts ++ us.map (Token.relocate (Span.shift (a.utf8ByteSize + 1)))) (lex b) := by
  have htext : (a ++ "\n" ++ b).toList = a.toList ++ '\n' :: b.toList := by
    rw [String.toList_append, String.toList_append, List.append_assoc]
    rfl
  have hlength : (a ++ "\n" ++ b).utf8ByteSize = a.utf8ByteSize + 1 + b.utf8ByteSize := by
    rw [String.utf8ByteSize_append, String.utf8ByteSize_append]
    rfl
  have hshift : lexFrom ⟨0 + byteLength a.toList + 1, b.toList⟩ =
      carried (LexError.relocate (Span.shift (a.utf8ByteSize + 1)))
        (List.map (Token.relocate (Span.shift (a.utf8ByteSize + 1)))) (lex b) := by
    have hfits : 0 + byteLength b.toList + (a.utf8ByteSize + 1) ≤ Span.maxOffset := by
      rw [byteLength_toList, Span.maxOffset]
      omega
    rw [byteLength_toList, Nat.add_assoc]
    exact lexFrom_shift (a.utf8ByteSize + 1) ⟨0, b.toList⟩ hfits
  rw [lex, htext, lexFrom_append (tiles_of_lex h), hshift]
  cases lex b with
  | ok us => rfl
  | error e => rfl

/-! ## datums and expressions -/

def SourceError.relocate (σ : Span → Span) : SourceError → SourceError
  | lex e => lex (e.relocate σ)
  | read e => read (e.relocate σ)
  | form e => form (e.relocate σ)

theorem read_append {a b : String} (hsize : (a ++ "\n" ++ b).utf8ByteSize < 2 ^ 32)
    {ds : List (Datum String)} (h : read a = .ok ds) : read (a ++ "\n" ++ b) =
      carried (SourceError.relocate (Span.shift (a.utf8ByteSize + 1)))
        (fun es => ds ++ es.map (Datum.shift (a.utf8ByteSize + 1))) (read b) := by
  obtain ⟨ts, hlex, hread⟩ := read_eq_ok h
  unfold read
  rw [lex_append hsize hlex]
  cases lex b with
  | error e => rfl
  | ok us =>
    show (readTokens (ts ++ us.map _)).mapError SourceError.read =
      carried _ _ ((readTokens us).mapError SourceError.read)
    rw [readTokens_append hread]
    cases readTokens us with
    | ok es => rfl
    | error e => rfl

theorem Expr.ofDatums_append {ds : List (Datum String)} {es : List (Expr String)}
    (h : ofDatums ds = .ok es) (ds' : List (Datum String)) :
    ofDatums (ds ++ ds') = (ofDatums ds').map (es ++ ·) := by
  rw [ofDatums_eq_mapM, List.mapM_append, ← ofDatums_eq_mapM, ← ofDatums_eq_mapM, h]
  cases ofDatums ds' with
  | ok fs => rfl
  | error e => rfl

theorem Expr.ofDatums_shift (n : Nat) (ds : List (Datum String)) :
    ofDatums (ds.map (Datum.shift n)) =
    relocated (Span.shift n) (relocateAll (Span.shift n)) (ofDatums ds) := by
  show ofDatums (ds.map (Datum.relocate (Span.shift n))) = _
  rw [← Datum.relocateAll_eq_map]
  exact ofDatums_relocate fun d _ => ofDatum_relocate (Span.shift n) d

theorem parse_append {a b : String} (hsize : (a ++ "\n" ++ b).utf8ByteSize < 2 ^ 32)
    {es : List (Expr String)} (h : parse a = .ok es) : parse (a ++ "\n" ++ b) =
      carried (SourceError.relocate (Span.shift (a.utf8ByteSize + 1)))
        (fun fs => es ++ Expr.relocateAll (Span.shift (a.utf8ByteSize + 1)) fs) (parse b) := by
  obtain ⟨ds, hread, hrecognized⟩ := parse_eq_ok h
  unfold parse
  rw [read_append hsize hread]
  cases read b with
  | error e => rfl
  | ok cs =>
    show (Expr.ofDatums (ds ++ cs.map (Datum.shift _))).mapError SourceError.form =
      carried _ _ ((Expr.ofDatums cs).mapError SourceError.form)
    rw [Expr.ofDatums_append hrecognized, Expr.ofDatums_shift]
    cases Expr.ofDatums cs with
    | ok fs => rfl
    | error e => rfl

/-! ## forms -/

def CompileError.relocate (σ : Span → Span) : CompileError → CompileError
  | source e => source (e.relocate σ)
  | tree e => tree (e.relocate σ)

section
variable [ContentHash]

theorem Form.ofExprs_append {o : Options} {es : List (Expr String)}
    {fs : List (Form String Namespace)} (h : ofExprs o es = (fs, none)) (es' : List (Expr String)) :
    ofExprs o (es ++ es') = (fs ++ (ofExprs o es').1, (ofExprs o es').2) := by
  induction es generalizing fs with
  | nil =>
    cases h
    rfl
  | cons e es ih =>
    rw [ofExprs] at h
    rw [List.cons_append, ofExprs]
    cases he : ofExpr o e with
    | error err =>
      rw [he] at h
      cases h
    | ok f =>
      rw [he] at h
      obtain ⟨rfl, hnone⟩ := Prod.mk.inj h
      have hrest : ofExprs o es = ((ofExprs o es).1, none) := Prod.ext rfl hnone
      show (f :: (ofExprs o (es ++ es')).1, (ofExprs o (es ++ es')).2) = _
      rw [ih hrest]
      rfl

/-- the forms of the first source, and then those of the second one further on -/
theorem compile_append {o : Options} {a b : String}
    (hsize : (a ++ "\n" ++ b).utf8ByteSize < 2 ^ 32) {fs : List (Form String Namespace)}
    (h : compile o a = .ok fs) : compile o (a ++ "\n" ++ b) =
      carried (CompileError.relocate (Span.shift (a.utf8ByteSize + 1)))
        (fun gs => fs ++ gs.map (Form.relocate (Span.shift (a.utf8ByteSize + 1)))) (compile o b) := by
  unfold compile at h
  split at h
  · cases h
  · rename_i es hparse
    split at h
    · rename_i hforms
      cases h
      unfold compile
      rw [parse_append hsize hparse]
      cases parse b with
      | error e => rfl
      | ok cs =>
        simp only [carried, Form.ofExprs_append hforms, Form.ofExprs_relocate]
        rcases Form.ofExprs o cs with ⟨gs, _ | e⟩
        · rfl
        · rfl
    · cases h

end

/-! ## sessions -/

namespace Session

section
variable [ContentHash] {s : Session} (hs : s.scopes.Valid) {o : Options} {source : String}
include hs

theorem compile_of_error {e : CompileError} (h : TraceFront.compile o source = .error e) :
    (s.compile o source).1 = .error e := by
  rcases compile_cases hs o source with ⟨e', he', hr⟩ | ⟨fs, gs, hfs, _, _⟩
  · rw [h] at he'
    cases he'
    exact hr
  · rw [h] at hfs
    cases hfs

theorem compile_of_ok {fs : List (Form String Namespace)}
    (h : TraceFront.compile o source = .ok fs) : ∃ gs, (s.compile o source).1 = .ok gs ∧
      gs.map (s.compile o source).2.spell = fs.map Form.resolved := by
  rcases compile_cases hs o source with ⟨e, he, _⟩ | ⟨fs', gs, hfs, hr, hspell⟩
  · rw [h] at he
    cases he
  · rw [h] at hfs
    cases hfs
    exact ⟨gs, hr, hspell⟩

theorem ok_of_compile {gs : List (Form Name ScopeId)} (h : (s.compile o source).1 = .ok gs) :
    ∃ fs, TraceFront.compile o source = .ok fs ∧
      gs.map (s.compile o source).2.spell = fs.map Form.resolved := by
  rcases compile_cases hs o source with ⟨e, _, hr⟩ | ⟨fs, gs', hfs, hr, hspell⟩
  · rw [h] at hr
    cases hr
  · rw [h] at hr
    cases hr
    exact ⟨fs, hfs, hspell⟩

end

/-- **Sources one behind the other compile to forms one behind the other.**  If the first source
compiles, then the two with a newline between them compile exactly if the second one does.  The
forms are those of the first source, and then those of the second one with their warnings further on
by the first source and the newline.  An error of the second source is the error of both, further on
in the same way.  Handles may differ, but not the texts and the namespaces that they stand for. -/
theorem compile_concatenation [ContentHash] {s₁ s₂ s₃ : Session} (h₁ : s₁.Reachable)
    (h₂ : s₂.Reachable) (h₃ : s₃.Reachable) {o : Options} {a b : String}
    (hsize : (a ++ "\n" ++ b).utf8ByteSize < 2 ^ 32) {fs : List (Form Name ScopeId)}
    (ha : (s₁.compile o a).1 = .ok fs) :
    (∃ gs hs, (s₂.compile o b).1 = .ok gs ∧ (s₃.compile o (a ++ "\n" ++ b)).1 = .ok hs ∧
      hs.map (s₃.compile o (a ++ "\n" ++ b)).2.spell =
        fs.map (s₁.compile o a).2.spell ++
          gs.map fun g =>
            ((s₂.compile o b).2.spell g).relocate (Span.shift (a.utf8ByteSize + 1))) ∨
    ∃ e, (s₂.compile o b).1 = .error e ∧
      (s₃.compile o (a ++ "\n" ++ b)).1 =
        .error (e.relocate (Span.shift (a.utf8ByteSize + 1))) := by
  obtain ⟨fs', hfs, hfirst⟩ := ok_of_compile h₁.valid ha
  have hboth := compile_append (b := b) hsize hfs
  cases hb : TraceFront.compile o b with
  | error e =>
    rw [hb] at hboth
    exact .inr ⟨e, compile_of_error h₂.valid hb, compile_of_error h₃.valid hboth⟩
  | ok gs' =>
    rw [hb] at hboth
    obtain ⟨gs, hgs, hsecond⟩ := compile_of_ok h₂.valid hb
    obtain ⟨hs, hhs, hspell⟩ := compile_of_ok h₃.valid hboth
    -- the warnings can be moved before the scope is resolved or after it
    have hmoved : gs.map (fun g =>
        ((s₂.compile o b).2.spell g).relocate (Span.shift (a.utf8ByteSize + 1))) =
          (gs'.map (Form.relocate (Span.shift (a.utf8ByteSize + 1)))).map Form.resolved := by
      show gs.map (Form.relocate _ ∘ (s₂.compile o b).2.spell) = _
      rw [← List.map_map, hsecond, List.map_map, List.map_map]
      rfl
    refine .inl ⟨gs, hs, hgs, hhs, ?_⟩
    rw [hspell, hfirst, hmoved, List.map_append]

/-- a first source that ends in a comment, and a second one with a warning -/
theorem compile_concatenation_after_comment :
    let a := "(define f (program [x] x)) ; é"
    let b := "(block (define y f))"
    (a ++ "\n" ++ b).utf8ByteSize < 2 ^ 32 ∧
    ∃ fs gs hs, (empty.compile .default a).1 = .ok fs ∧
      ((empty.compile .default a).2.compile .default b).1 = .ok gs ∧
      (empty.compile .default (a ++ "\n" ++ b)).1 = .ok hs ∧
      hs.map (empty.compile .default (a ++ "\n" ++ b)).2.spell =
        fs.map (empty.compile .default a).2.spell ++
          gs.map fun g => (((empty.compile .default a).2.compile .default b).2.spell g).relocate
            (Span.shift 32) := by
  intro a b
  let e : Expr String := .define (.name "f")
    (.program (.tuple [.name "x"]) [.var "x" ⟨23, 24⟩] ⟨10, 25⟩) ⟨0, 26⟩
  let g : Expr String := .block [.define (.name "y") (.var "f" ⟨17, 18⟩) ⟨7, 19⟩] ⟨0, 20⟩
  have hread : TraceFront.read a = .ok [.list [.symbol "define" ⟨1, 7⟩, .symbol "f" ⟨8, 9⟩,
      .list [.symbol "program" ⟨11, 18⟩, .vector [.symbol "x" ⟨20, 21⟩] ⟨19, 22⟩,
        .symbol "x" ⟨23, 24⟩] ⟨10, 25⟩] ⟨0, 26⟩] := by
    decide +kernel
  have hread' : TraceFront.read b = .ok [.list [.symbol "block" ⟨1, 6⟩,
      .list [.symbol "define" ⟨8, 14⟩, .symbol "y" ⟨15, 16⟩, .symbol "f" ⟨17, 18⟩] ⟨7, 19⟩]
      ⟨0, 20⟩] := by
    decide +kernel
  have hparse : TraceFront.parse a = .ok [e] := parse_of_read hread rfl
  have hparse' : TraceFront.parse b = .ok [g] := parse_of_read hread' rfl
  have hsize : (a ++ "\n" ++ b).utf8ByteSize < 2 ^ 32 := by decide
  have hstart : empty.Reachable := .start
  have hlater : (empty.compile .default a).2.Reachable := .compile _ _ hstart
  have hcompile : ∃ fs, TraceFront.compile .default a = .ok fs := by
    rw [TraceFront.compile, hparse]
    exact ⟨_, rfl⟩
  have hcompile' : ∃ gs, TraceFront.compile .default b = .ok gs := by
    rw [TraceFront.compile, hparse']
    exact ⟨_, rfl⟩
  obtain ⟨_, hfirst⟩ := hcompile
  obtain ⟨_, hsecond⟩ := hcompile'
  obtain ⟨fs, hfs, _⟩ := compile_of_ok hstart.valid hfirst
  obtain ⟨gs, hgs, _⟩ := compile_of_ok hlater.valid hsecond
  refine ⟨hsize, fs, gs, ?_⟩
  rcases compile_concatenation hstart hlater hstart hsize hfs with
    ⟨gs', hs, hgs', hhs, hspell⟩ | ⟨err, herr, _⟩
  · rw [hgs] at hgs'
    cases hgs'
    exact ⟨hs, hfs, hgs, hhs, hspell⟩
  · rw [hgs] at herr
    cases herr

end Session

end TraceFront
