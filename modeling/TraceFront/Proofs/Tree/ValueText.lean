import TraceFront.Proofs.Datum.Printing
import TraceFront.Proofs.Text.Quoting
import TraceFront.Tree.NodeType
import TraceFront.Tree.Value

/-!
# Values and their texts

The text of a value tells the value if it is known whether a literal or a symbol is meant, unless the
literal is a fraction.  A string starts with a quote, which no atom does, and the lexer tells what an
atom is.

* `InLine`                         a text that can stand in a line behind the indentation;
* `Literal.Plain`                  no fraction, and if a keyword, one atom;
* `Literal.render_injective`       the text of such a literal tells the literal;
* `Holds`                          the types whose nodes hold a value, the field and the value;
* `Holds.render_injective`         the text of the value tells the value if the type is known.
-/

namespace TraceFront

open Text

/-- the text does not start with a blank, and no line ends in it -/
structure InLine (cs : List Char) : Prop where
  head : cs.head? ≠ some ' '
  newline : '\n' ∉ cs

theorem inLine_of_atomChars {cs : List Char} (h : ∀ c ∈ cs, isAtomChar c = true) : InLine cs := by
  constructor
  · intro hhead
    exact absurd (h ' ' (List.mem_of_mem_head? hhead)) (by decide)
  · intro hmem
    exact absurd (h '\n' hmem) (by decide)

theorem InLine.append {cs ds : List Char} (hc : InLine cs) (hd : InLine ds) :
    InLine (cs ++ ds) := by
  refine ⟨?_, fun h => (List.mem_append.mp h).elim hc.newline hd.newline⟩
  cases cs with
  | nil => exact hd.head
  | cons c cs => exact hc.head

/-! ## literals -/

namespace Literal

/-- no fraction, and if it is a keyword, one atom -/
def Plain : Literal String → Prop
  | float _ => False
  | keyword k => KeywordText k.toList
  | _ => True

theorem kind_injective {l l' : Literal String} (h : l.kind = l'.kind) : l = l' := by
  have hword : ∀ b, boolText b ≠ "nil" := by decide
  have hbool : ∀ b b', boolText b = boolText b' → b = b' := by decide
  cases l with
  | nil =>
    cases l' with
    | nil => rfl
    | bool b => exact absurd (TokenKind.symbol.inj h).symm (hword b)
    | _ => cases h
  | bool b =>
    cases l' with
    | nil => exact absurd (TokenKind.symbol.inj h) (hword b)
    | bool b' => rw [hbool b b' (TokenKind.symbol.inj h)]
    | _ => cases h
  | _ =>
    cases l' <;> cases h
    rfl

/-- a literal other than a string is written as one atom -/
theorem atomText_render {l : Literal String} (h : l.Plain) :
    (∃ s, l = .str s) ∨ AtomText l.render.toList l.kind := by
  cases l with
  | nil => exact .inr (symbolText_of_word (.inl rfl)).atom
  | bool b =>
    cases b with
    | true => exact .inr (symbolText_of_word (.inr (.inl rfl))).atom
    | false => exact .inr (symbolText_of_word (.inr (.inr rfl))).atom
  | int n => exact .inr (atomText_int n)
  | float x => exact h.elim
  | str s => exact .inl ⟨s, rfl⟩
  | keyword k => exact .inr (KeywordText.atom h)

theorem not_atomText_quoted {s : String} {k : TokenKind} : ¬AtomText (quoted s).toList k := by
  intro h
  rw [toList_quoted] at h
  exact absurd (h.atomChars '"' List.mem_cons_self) (by decide)

theorem render_injective {l l' : Literal String} (hl : l.Plain) (hl' : l'.Plain)
    (h : l.render = l'.render) : l = l' := by
  rcases atomText_render hl with ⟨s, rfl⟩ | hatom
  · rcases atomText_render hl' with ⟨s', rfl⟩ | hatom'
    · exact congrArg str (quoted_injective h)
    · rw [← h] at hatom'
      exact absurd hatom' not_atomText_quoted
  · rcases atomText_render hl' with ⟨s', rfl⟩ | hatom'
    · rw [h] at hatom
      exact absurd hatom not_atomText_quoted
    · -- one text is not classified in two ways
      rw [h] at hatom
      have hkind := (hatom.classified default).symm.trans (hatom'.classified default)
      exact kind_injective (Except.ok.inj hkind)

theorem inLine_render {l : Literal String} (h : l.Plain) : InLine l.render.toList := by
  rcases atomText_render h with ⟨s, rfl⟩ | hatom
  · refine ⟨?_, newline_not_mem_quoted s⟩
    show (quoted s).toList.head? ≠ some ' '
    rw [toList_quoted]
    exact fun heq => absurd (Option.some.inj heq) (by decide)
  · exact inLine_of_atomChars hatom.atomChars

end Literal

/-! ## values -/

/-- nodes of the type hold the value in a leaf in the field -/
inductive Holds : NodeType → Field → Value → Prop
  | literal {l : Literal String} (h : l.Plain) : Holds .literal .value (.constant l)
  | symbol {n : String} (h : InLine n.toList) : Holds .reference .name (.symbol n)

namespace Holds

variable {t : NodeType} {f g : Field} {v w : Value}

theorem field_eq (hv : Holds t f v) (hw : Holds t g w) : f = g := by
  cases hv <;> cases hw <;> rfl

theorem render_injective (hv : Holds t f v) (hw : Holds t g w) (h : v.render = w.render) :
    v = w := by
  cases hv with
  | literal hl =>
    cases hw with
    | literal hl' => exact congrArg Value.constant (Literal.render_injective hl hl' h)
  | symbol _ =>
    cases hw with
    | symbol _ => exact congrArg Value.symbol h

theorem inLine_render (h : Holds t f v) : InLine v.render.toList := by
  cases h with
  | literal hl => exact Literal.inLine_render hl
  | symbol hn => exact hn

end Holds

/-- nodes of the other types hold no values -/
theorem not_holds {t : NodeType} (hl : t ≠ .literal) (hr : t ≠ .reference) {f : Field} {v : Value} :
    ¬Holds t f v := by
  intro h
  cases h with
  | literal _ => exact hl rfl
  | symbol _ => exact hr rfl

end TraceFront
