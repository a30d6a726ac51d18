import TraceFront.Datum.Basic
import TraceFront.Datum.Error

/-!
# The reader

Tokens become datums one after the other.  The reader keeps a stack of unfinished terms: brackets
that are open, with the datums read inside them, and sigils that wait for the term they apply to.
A finished datum goes to the innermost unfinished term; a sigil there turns it into a two-element
list and passes that on.

* `Unfinished`       an unfinished term;
* `Reader.place`     a finished datum arrives;
* `Reader.step`      one token;
* `Reader.finish`    the end of the tokens;
* `readTokens`       all of it.
-/

namespace TraceFront

/-- a term that is not finished: an open bracket with the datums read in it so far, last first, or
a sigil without its term -/
inductive Unfinished (ν : Type) where
  | bracket (shape : Delimiter) (start : Nat) (items : List (Datum ν))
  | sigil (mark : Sigil) (start : Nat)

/-- the error of a term that ends too early; the span covers the first byte of the term -/
def Unfinished.error {ν : Type} : Unfinished ν → ReadError
  | bracket shape start _ => .unclosed shape ⟨start, start + 1⟩
  | sigil mark start => .danglingSigil mark ⟨start, start + 1⟩

def Delimiter.datum {ν : Type} (shape : Delimiter) (items : List (Datum ν)) (span : Span) :
    Datum ν :=
  match shape with
  | round => .list items span
  | square => .vector items span

/-- the list that the word of a form and a term make up; the word stands at `start` and has no
width -/
def Datum.headed {ν : Type} (word : ν) (start : Nat) (term : Datum ν) : Datum ν :=
  .list [.symbol word ⟨start, start⟩, term] ⟨start, term.span.stop⟩

def Sigil.wrap (mark : Sigil) (start : Nat) (term : Datum String) : Datum String :=
  .headed mark.form.word start term

/-- the datum of a symbol: three words are literals -/
def Datum.ofSymbol (name : String) (span : Span) : Datum String :=
  if name = "nil" then .literal .nil span
  else if name = "true" then .literal (.bool true) span
  else if name = "false" then .literal (.bool false) span
  else .symbol name span

/-- unfinished terms, innermost first, and the finished top-level datums, last first -/
structure Reader (ν : Type) where
  stack : List (Unfinished ν)
  done : List (Datum ν)

namespace Reader

variable {ν : Type}

def empty : Reader ν := ⟨[], []⟩

def push (r : Reader ν) (u : Unfinished ν) : Reader ν := ⟨u :: r.stack, r.done⟩

/-- a finished datum goes to the innermost unfinished term, after the sigils in front of it -/
def place (done : List (Datum String)) (d : Datum String) : List (Unfinished String) → Reader String
  | [] => ⟨[], d :: done⟩
  | .sigil mark start :: us => place done (mark.wrap start d) us
  | .bracket shape start items :: us => ⟨.bracket shape start (d :: items) :: us, done⟩

def atom (r : Reader String) (d : Datum String) : Reader String := place r.done d r.stack

/-- a closing bracket must close the innermost unfinished term -/
def close (r : Reader String) (shape : Delimiter) (span : Span) :
    Except ReadError (Reader String) :=
  match r.stack with
  | [] => .error (.unexpectedClose shape span)
  | .sigil mark start :: _ => .error (Unfinished.sigil mark start : Unfinished String).error
  | .bracket shape' start items :: us =>
    if shape = shape' then
      .ok (place r.done (shape.datum items.reverse ⟨start, span.stop⟩) us)
    else .error (.unexpectedClose shape span)

def step (r : Reader String) (t : Token) : Except ReadError (Reader String) :=
  match t.kind with
  | .opening shape => .ok (r.push (.bracket shape t.span.start []))
  | .closing shape => r.close shape t.span
  | .sigil mark => .ok (r.push (.sigil mark t.span.start))
  | .str s => .ok (r.atom (.literal (.str s) t.span))
  | .int n => .ok (r.atom (.literal (.int n) t.span))
  | .float x => .ok (r.atom (.literal (.float x) t.span))
  | .keyword k => .ok (r.atom (.literal (.keyword k) t.span))
  | .symbol s => .ok (r.atom (.ofSymbol s t.span))

def steps (r : Reader String) : List Token → Except ReadError (Reader String)
  | [] => .ok r
  | t :: ts =>
    match r.step t with
    | .ok r' => steps r' ts
    | .error e => .error e

/-- the top-level datums, if no term is unfinished -/
def finish (r : Reader ν) : Except ReadError (List (Datum ν)) :=
  match r.stack with
  | [] => .ok r.done.reverse
  | u :: _ => .error u.error

end Reader

def readTokens (ts : List Token) : Except ReadError (List (Datum String)) :=
  match Reader.empty.steps ts with
  | .ok r => r.finish
  | .error e => .error e

end TraceFront
