import TraceFront.Datum.Reader
import TraceFront.Interner

/-!
# Reading into handles

The reader as a session runs it.  The texts of strings, keywords and symbols are taken in when their
tokens come, and the word of a form when a sigil gets its term.  What was taken in before an error
stays.

* `Interning`        a step that may take in texts and may fail;
* `Reader.deliver`   a finished datum arrives;
* `Reader.take`      one token;
* `readNames`        the datums that tokens make up.
-/

namespace TraceFront

/-- a step that may take in texts, and keeps them if it fails -/
abbrev Interning (ε : Type) := ExceptT ε (StateM Interner)

namespace Interning

def intern {ε : Type} (s : String) : Interning ε Name := modifyGet fun t => t.intern s

end Interning

open Interning (intern)

/-- the datum of a symbol: three words are literals, and are not taken in -/
def nameSymbol (s : String) (span : Span) : Interning ReadError (Datum Name) :=
  if s = "nil" then return .literal .nil span
  else if s = "true" then return .literal (.bool true) span
  else if s = "false" then return .literal (.bool false) span
  else return .symbol (← intern s) span

namespace Reader

/-- a finished datum goes to the innermost unfinished term, after the sigils in front of it -/
def deliver (done : List (Datum Name)) (d : Datum Name) :
    List (Unfinished Name) → Interning ReadError (Reader Name)
  | [] => return ⟨[], d :: done⟩
  | .sigil mark start :: us => do
    let word ← intern mark.form.word
    deliver done (.headed word start d) us
  | .bracket shape start items :: us => return ⟨.bracket shape start (d :: items) :: us, done⟩

/-- a closing bracket must close the innermost unfinished term -/
def shut (r : Reader Name) (shape : Delimiter) (span : Span) :
    Interning ReadError (Reader Name) :=
  match r.stack with
  | [] => throw (.unexpectedClose shape span)
  | .sigil mark start :: _ => throw (Unfinished.sigil mark start : Unfinished Name).error
  | .bracket shape' start items :: us =>
    if shape = shape' then deliver r.done (shape.datum items.reverse ⟨start, span.stop⟩) us
    else throw (.unexpectedClose shape span)

def take (r : Reader Name) (t : Token) : Interning ReadError (Reader Name) :=
  match t.kind with
  | .opening shape => return r.push (.bracket shape t.span.start [])
  | .closing shape => r.shut shape t.span
  | .sigil mark => return r.push (.sigil mark t.span.start)
  | .str s => do deliver r.done (.literal (.str (← intern s)) t.span) r.stack
  | .int n => deliver r.done (.literal (.int n) t.span) r.stack
  | .float x => deliver r.done (.literal (.float x) t.span) r.stack
  | .keyword k => do deliver r.done (.literal (.keyword (← intern k)) t.span) r.stack
  | .symbol s => do deliver r.done (← nameSymbol s t.span) r.stack

def takeAll (r : Reader Name) : List Token → Interning ReadError (Reader Name)
  | [] => return r
  | t :: ts => do
    let r ← r.take t
    takeAll r ts

end Reader

def readNames (ts : List Token) : Interning ReadError (List (Datum Name)) := do
  let r ← Reader.empty.takeAll ts
  ofExcept r.finish

end TraceFront
