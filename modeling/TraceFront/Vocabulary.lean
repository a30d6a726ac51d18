/-!
# The reserved words of the surface language

Nine words name forms and may not be used as identifiers.  Two more spellings have a meaning of
their own: `&this` stands for the enclosing procedure, and `_` is a pattern that binds nothing.
The character `|` joins the parts of synthesized names and so may not occur in an identifier.

* `SpecialForm`             the nine forms;
* `SpecialForm.word`        the word of a form, and `SpecialForm.ofWord?` the form of a word;
* `Vocabulary.isReserved`   the word names a form;
* `Sigil`                   the marks that abbreviate two of the forms.
-/

namespace TraceFront

/-- the forms that a reserved word introduces -/
inductive SpecialForm where
  | program
  | conditional
  | block
  | define
  | withAddress
  | tuple
  | this
  | splice
  | unquote
deriving DecidableEq, Inhabited

namespace SpecialForm

def word : SpecialForm → String
  | program => "program"
  | conditional => "if"
  | block => "block"
  | define => "define"
  | withAddress => "with-address"
  | tuple => "tuple"
  | this => "this"
  | splice => "splice"
  | unquote => "unquote"

def all : List SpecialForm :=
  [program, conditional, block, define, withAddress, tuple, this, splice, unquote]

def ofWord? (s : String) : Option SpecialForm := all.find? fun f => f.word == s

theorem mem_all (f : SpecialForm) : f ∈ all := by cases f <;> decide

@[simp] theorem ofWord?_word (f : SpecialForm) : ofWord? f.word = some f := by
  cases f <;> decide

theorem word_injective {f g : SpecialForm} (h : f.word = g.word) : f = g := by
  simpa using congrArg ofWord? h

theorem ofWord?_eq_some_iff {s : String} {f : SpecialForm} : ofWord? s = some f ↔ f.word = s := by
  constructor
  · intro h
    simpa using List.find?_some h
  · rintro rfl
    exact ofWord?_word f

end SpecialForm

namespace Vocabulary

def words : List String := SpecialForm.all.map SpecialForm.word

/-- the identifier of the enclosing procedure -/
def selfReference : String := "&this"

/-- the pattern that binds nothing -/
def wildcard : String := "_"

/-- the character between the parts of a synthesized name -/
def separator : Char := '|'

def isReserved (s : String) : Bool := (SpecialForm.ofWord? s).isSome

end Vocabulary

/-- the marks that may stand before a term -/
inductive Sigil where
  | unquote
  | splice
deriving DecidableEq, Inhabited

namespace Sigil

def text : Sigil → String
  | unquote => "~"
  | splice => "~@"

def form : Sigil → SpecialForm
  | unquote => .unquote
  | splice => .splice

end Sigil

end TraceFront
