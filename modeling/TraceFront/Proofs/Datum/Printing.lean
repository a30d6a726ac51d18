import TraceFront.Proofs.Datum.Grammar
import TraceFront.Proofs.Expr.Places
import TraceFront.Proofs.Source.Identifiers
import TraceFront.Proofs.Token.Printing

/-!
# Printed datums are read again

* `Datum.kinds`        the tokens that the text of a datum shows;
* `Datum.Legible`      the symbols and literals of a datum are such as a text can show;
* `Datum.leads`        the text of a legible datum is cut into these tokens, in front of any text that
                       does not go on with its last one;
* `derivable`          tokens of these kinds derive the datum, its places apart;
* `Datum.read_render`  so the text of a legible datum is read as that datum.
-/

namespace TraceFront

open Text

/-! ## what a text shows -/

namespace Datum

mutual

/-- the tokens that a datum is printed as -/
def kinds : Datum String → List TokenKind
  | literal l _ => [l.kind]
  | symbol n _ => [.symbol n]
  | list ds _ => .opening .round :: (kindsAll ds ++ [.closing .round])
  | vector ds _ => .opening .square :: (kindsAll ds ++ [.closing .square])

def kindsAll : List (Datum String) → List TokenKind
  | [] => []
  | d :: ds => d.kinds ++ kindsAll ds

end

end Datum

/-- the literal can be read from its text: it is no fraction, each character of a string stands for
itself or has a short escape, and a keyword is an atom -/
def Literal.Legible : Literal String → Prop
  | .float _ => False
  | .str s => ∀ c ∈ s.toList, needsCode c = false
  | .keyword k => KeywordText k.toList
  | _ => True

/-- the datum can be read from its text -/
structure Datum.Legible (d : Datum String) : Prop where
  symbols : ∀ n ∈ d.symbols, PlainSymbol n
  literals : ∀ l ∈ d.literals, l.Legible

theorem Datum.legible_bracket (shape : Delimiter) {ds : List (Datum String)}
    (h : ∀ d ∈ ds, d.Legible) (s : Span) : (shape.datum ds s).Legible := by
  have hsymbols : ∀ n ∈ symbolsAll ds, PlainSymbol n := by
    intro n hn
    obtain ⟨d, hd, hnd⟩ := mem_symbolsAll.mp hn
    exact (h d hd).symbols n hnd
  have hliterals : ∀ l ∈ literalsAll ds, l.Legible := by
    intro l hl
    obtain ⟨d, hd, hld⟩ := mem_literalsAll.mp hl
    exact (h d hd).literals l hld
  cases shape with
  | round => exact ⟨hsymbols, hliterals⟩
  | square => exact ⟨hsymbols, hliterals⟩

theorem Datum.Legible.item {c d : Datum String} (h : d.Legible) (hc : c ∈ d.items) : c.Legible :=
  ⟨fun n hn => h.symbols n (symbols_of_mem_items hc hn),
    fun l hl => h.literals l (literals_of_mem_items hc hl)⟩

/-! ## cutting the text -/

theorem symbolText_of_word {w : String} (h : w = "nil" ∨ w = "true" ∨ w = "false") :
    SymbolText w.toList := by
  rcases h with rfl | rfl | rfl
  all_goals exact ⟨by decide, List.all_eq_true.mp (by decide), by decide, by simp, by decide⟩

theorem Literal.leads {l : Literal String} (hl : l.Legible) {rest : List Char}
    (hrest : AtomEnded rest) : LeadsTo (l.render.toList ++ rest) [l.kind] rest := by
  cases l with
  | nil => exact LeadsTo.atom (symbolText_of_word (.inl rfl)).atom hrest
  | bool b =>
    cases b with
    | true => exact LeadsTo.atom (symbolText_of_word (.inr (.inl rfl))).atom hrest
    | false => exact LeadsTo.atom (symbolText_of_word (.inr (.inr rfl))).atom hrest
  | int n => exact LeadsTo.atom (atomText_int n) hrest
  | float x => exact hl.elim
  | str s => exact LeadsTo.quoted hl rest
  | keyword k => exact LeadsTo.atom (KeywordText.atom hl) hrest

namespace Datum

theorem toList_bracketed (shape : Delimiter) (ds : List (Datum String)) (s : Span) :
    (shape.datum ds s).render.toList =
      shape.opening :: ([' '].intercalate (ds.map (·.render.toList)) ++ [shape.closing]) := by
  have hspaced : (spaced (renderAll ds)).toList = [' '].intercalate (ds.map (·.render.toList)) := by
    rw [spaced, String.toList_intercalate, renderAll_eq_map, List.map_map]
    rfl
  cases shape with
  | round =>
    show (parenthesized (renderAll ds)).toList = _
    rw [parenthesized, String.toList_append, String.toList_append, hspaced]
    rfl
  | square =>
    show (bracketed (renderAll ds)).toList = _
    rw [bracketed, String.toList_append, String.toList_append, hspaced]
    rfl

/-- the datum in front of any text -/
def Prints (d : Datum String) : Prop := ∀ {rest : List Char} {ks : List TokenKind}, AtomEnded rest →
  LexesTo rest ks → LexesTo (d.render.toList ++ rest) (d.kinds ++ ks)

/-- the datum in front of any text, be there an error in that text or none -/
def Leads (d : Datum String) : Prop :=
  ∀ {rest : List Char}, AtomEnded rest → LeadsTo (d.render.toList ++ rest) d.kinds rest

theorem leads_items {ds : List (Datum String)} (hds : ∀ d ∈ ds, d.Leads) {rest : List Char}
    (hrest : AtomEnded rest) :
    LeadsTo ([' '].intercalate (ds.map (·.render.toList)) ++ rest) (kindsAll ds) rest := by
  induction ds with
  | nil => exact LeadsTo.refl rest
  | cons d ds ih =>
    obtain ⟨hd, hds⟩ := List.forall_mem_cons.mp hds
    cases ds with
    | nil =>
      rw [List.map_cons, List.map_nil, List.intercalate_singleton]
      exact (hd hrest).trans (LeadsTo.refl rest)
    | cons e es =>
      rw [List.map_cons, List.map_cons, List.intercalate_cons_cons, List.append_assoc,
        List.append_assoc]
      -- the blank between two items ends the first one
      exact (hd (atomEnded_cons rfl _)).trans ((LeadsTo.blank rfl _).trans (ih hds))

theorem leads_bracket (shape : Delimiter) {ds : List (Datum String)} (hds : ∀ d ∈ ds, d.Leads)
    (s : Span) (rest : List Char) : LeadsTo ((shape.datum ds s).render.toList ++ rest)
      (.opening shape :: (kindsAll ds ++ [.closing shape])) rest := by
  rw [toList_bracketed, List.cons_append, List.append_assoc]
  have hitems := leads_items hds (atomEnded_closing shape rest)
  exact (LeadsTo.opening shape _).trans (hitems.trans (LeadsTo.closing shape rest))

/-- a legible datum leads to what stands behind it -/
theorem leads {d : Datum String} (hd : d.Legible) : d.Leads := by
  induction d using childInduction with
  | step d ih =>
    have hitems : ∀ c ∈ d.items, c.Leads := fun c hc => ih c hc (hd.item hc)
    intro rest hrest
    cases d with
    | literal l s => exact Literal.leads (hd.literals l List.mem_cons_self) hrest
    | symbol n s =>
      have hn : PlainSymbol n := hd.symbols n List.mem_cons_self
      exact LeadsTo.atom hn.text.atom hrest
    | list ds s => exact leads_bracket .round hitems s rest
    | vector ds s => exact leads_bracket .square hitems s rest

/-- a legible datum is printed as its tokens -/
theorem prints {d : Datum String} (hd : d.Legible) : d.Prints :=
  fun hrest h => (leads hd hrest).lexesTo h

end Datum

/-! ## deriving the datum -/

theorem atom?_of_kind {t : Token} {l : Literal String} (h : t.kind = l.kind) :
    t.atom? = some (.literal l t.span) := by
  rw [Token.atom?, h]
  cases l with
  | bool b => cases b <;> rfl
  | _ => rfl

theorem atom?_of_symbol {t : Token} {n : String} (h : t.kind = .symbol n) (hn : PlainSymbol n) :
    t.atom? = some (.symbol n t.span) := by
  rw [Token.atom?, h]
  dsimp only
  rw [Datum.ofSymbol, if_neg hn.not_nil, if_neg hn.not_true, if_neg hn.not_false]

open Phrase

/-- tokens that start with those of the datum start with a derivation of it -/
def Derivable (d : Datum String) : Prop := ∀ {ts : List Token} {ks : List TokenKind},
  ts.map (·.kind) = d.kinds ++ ks →
    ∃ p us, ts = tokens p ++ us ∧ us.map (·.kind) = ks ∧ p.datum.unplaced = d.unplaced

theorem exists_phrases_of_kinds {ds : List (Datum String)} (hds : ∀ d ∈ ds, Derivable d)
    {ts : List Token} {ks : List TokenKind} (h : ts.map (·.kind) = Datum.kindsAll ds ++ ks) :
    ∃ ps us, ts = tokensAll ps ++ us ∧ us.map (·.kind) = ks ∧
      (datums ps).map Datum.unplaced = ds.map Datum.unplaced := by
  induction ds generalizing ts with
  | nil => exact ⟨[], ts, rfl, h, rfl⟩
  | cons d ds ih =>
    obtain ⟨hd, hds⟩ := List.forall_mem_cons.mp hds
    rw [Datum.kindsAll, List.append_assoc] at h
    obtain ⟨p, us, rfl, hus, hp⟩ := hd h
    obtain ⟨ps, vs, rfl, hvs, hps⟩ := ih hds hus
    refine ⟨p :: ps, vs, ?_, hvs, ?_⟩
    · rw [tokensAll, List.append_assoc]
    · rw [datums, List.map_cons, List.map_cons, hp, hps]

theorem unplaced_bracket (shape : Delimiter) (ds : List (Datum String)) (s : Span) :
    (shape.datum ds s).unplaced = shape.datum (ds.map Datum.unplaced) default := by
  cases shape with
  | round => exact congrArg (Datum.list · default) (Datum.relocateAll_eq_map _ ds)
  | square => exact congrArg (Datum.vector · default) (Datum.relocateAll_eq_map _ ds)

theorem derivable_bracket (shape : Delimiter) {ds : List (Datum String)}
    (hds : ∀ d ∈ ds, Derivable d) (s : Span) {ts : List Token} {ks : List TokenKind}
    (h : ts.map (·.kind) = .opening shape :: (Datum.kindsAll ds ++ [.closing shape]) ++ ks) :
    ∃ p us, ts = tokens p ++ us ∧ us.map (·.kind) = ks ∧
      p.datum.unplaced = (shape.datum ds s).unplaced := by
  rw [List.cons_append, List.append_assoc] at h
  obtain ⟨t, us, rfl, ht, hus⟩ := List.map_eq_cons_iff.mp h
  obtain ⟨ps, vs, rfl, hvs, hps⟩ := exists_phrases_of_kinds hds hus
  obtain ⟨u, ws, rfl, hu, hws⟩ := List.map_eq_cons_iff.mp hvs
  refine ⟨.bracket shape t ps u ht hu, ws, ?_, hws, ?_⟩
  · rw [tokens, List.cons_append, List.append_assoc]
    rfl
  · rw [datum_bracket, unplaced_bracket, unplaced_bracket, hps]

theorem derivable {d : Datum String} (hd : ∀ n ∈ d.symbols, PlainSymbol n) : Derivable d := by
  induction d using Datum.childInduction with
  | step d ih =>
    have hitems : ∀ c ∈ d.items, Derivable c :=
      fun c hc => ih c hc fun n hn => hd n (Datum.symbols_of_mem_items hc hn)
    intro ts ks h
    cases d with
    | literal l s =>
      obtain ⟨t, us, rfl, ht, hus⟩ := List.map_eq_cons_iff.mp h
      exact ⟨.atom t _ (atom?_of_kind ht), us, rfl, hus, rfl⟩
    | symbol n s =>
      obtain ⟨t, us, rfl, ht, hus⟩ := List.map_eq_cons_iff.mp h
      exact ⟨.atom t _ (atom?_of_symbol ht (hd n List.mem_cons_self)), us, rfl, hus, rfl⟩
    | list ds s => exact derivable_bracket .round hitems s h
    | vector ds s => exact derivable_bracket .square hitems s h

/-! ## reading the text -/

/-- the text of a legible datum holds this datum and nothing else -/
theorem Datum.read_render {d : Datum String} (hd : d.Legible) :
    ∃ d', read d.render = .ok [d'] ∧ d'.unplaced = d.unplaced := by
  obtain ⟨ts, hlex, hkinds⟩ := prints hd atomEnded_nil LexesTo.nil 0
  obtain ⟨p, us, rfl, hus, hp⟩ := derivable hd.symbols hkinds
  obtain rfl := List.map_eq_nil_iff.mp hus
  have hlex' : lex d.render = .ok (tokensAll [p]) := by
    rw [List.append_nil] at hlex
    exact hlex
  refine ⟨p.datum, ?_, hp⟩
  rw [read, hlex']
  dsimp only
  rw [readTokens_tokensAll]
  rfl

end TraceFront
