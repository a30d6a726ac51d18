import TraceFront.Expr.OfDatum
import TraceFront.Named.Reader

/-!
# Recognition of forms on handles

A form parser takes in the words that have a meaning of their own and then compares handles.  It looks
a handle up only to refuse a name and to show a term.

* `FormParser.new`       the parser, with the handles of these words;
* `FormParser.lexicon`   how it tells names apart;
* `FormParser.parse`     the expressions that datums spell.
-/

namespace TraceFront

open Interning (intern)

/-- an interner, and the handles of the words that recognition compares with -/
structure FormParser where
  interner : Interner
  forms : List (Name × SpecialForm)
  selfReference : Name
  wildcard : Name

namespace FormParser

def new {ε : Type} : Interning ε FormParser := do
  let forms ← SpecialForm.all.mapM fun f => return (← intern f.word, f)
  let selfReference ← intern Vocabulary.selfReference
  let wildcard ← intern Vocabulary.wildcard
  return ⟨← get, forms, selfReference, wildcard⟩

/-- a name introduces the first form that has its handle -/
def formOf? (v : FormParser) (n : Name) : Option SpecialForm :=
  (v.forms.find? fun f => f.1 == n).map Prod.snd

@[reducible] def lexicon (v : FormParser) : Lexicon Name where
  form? := v.formOf?
  wildcard := v.wildcard
  selfReference := v.selfReference
  text := v.interner.textOf
  spell := Datum.map v.interner.textOf

def parse (v : FormParser) (ds : List (Datum Name)) : Except FormError (List (Expr Name)) :=
  letI := v.lexicon
  Expr.ofDatums ds

end FormParser

end TraceFront
