import TraceFront.Text.Lines
import TraceFront.Text.Spaced
import TraceFront.Diagnostic.Basic

/-!
# Diagnostics as text

A heading, one paragraph per label, one line per note, and a blank line.  With a source at hand a
primary label quotes the line where it starts and underlines the labelled part of it:

```text
warning[W3001]: definition of `x` is the last statement of its block
 --> model:2:3
  |
2 |   (define x 1))
  |   ^^^^^^^^^^^^ nothing follows this definition
  = note: the block evaluates to `x`
```

The underline starts at the column, which counts bytes, and ends with the span or with the line,
whichever is first; it has at least one mark.

* `Source.lineOf`         line, column and text of the line where a span starts;
* `Renderer.underline`    the underline of a span;
* `Renderer.diagnostic`   a whole diagnostic;
* `Renderer.summary`      the closing line that counts errors and warnings.
-/

namespace TraceFront

/-- when the output is coloured -/
inductive Coloring where
  | auto
  | always
  | never
deriving DecidableEq, Inhabited

/-- `auto` colours what goes to a terminal -/
def Coloring.enabled (mode : Coloring) (terminal : Bool) : Bool :=
  match mode with
  | .auto => terminal
  | .always => true
  | .never => false

/-- the text that spans point into, and the path that it is reported under -/
structure Source where
  path : String
  text : String

/-- line and column of the start of a span, and the text of that line -/
def Source.lineOf (file : Source) (span : Span) : Nat × Nat × String :=
  let (line, column) := span.lineColumn file.text
  (line, column, String.ofList (Text.lineAt (line - 1) file.text.toList))

inductive Tone where
  | error
  | warning
  | note
  | gutter
  | bold

/-- the control sequence that starts a tone -/
def Tone.start : Tone → String
  | .error => "\x1b[1;31m"
  | .warning => "\x1b[1;33m"
  | .note => "\x1b[1;36m"
  | .gutter => "\x1b[1;34m"
  | .bold => "\x1b[1m"

def Tone.stop : String := "\x1b[0m"

def Severity.tone : Severity → Tone
  | .error => .error
  | .warning => .warning
  | .note => .note

structure Renderer where
  colors : Bool
  source : Option Source

namespace Renderer

def toned (r : Renderer) (tone : Tone) (text : String) : String :=
  if r.colors then tone.start ++ text ++ Tone.stop else text

def heading (r : Renderer) (d : Diagnostic) : String :=
  r.toned d.severity.tone d.tag ++ ": " ++ r.toned .bold d.message ++ "\n"

/-- the number of marks under a line of `width` characters, for a span of `length` bytes that
starts at `column` -/
def markCount (width column length : Nat) : Nat :=
  max 1 (min length (max 1 (width - (column - 1))))

/-- the blanks and marks under a line -/
def underline (line : String) (column : Nat) (span : Span) : String :=
  Text.repeated ' ' column ++ Text.repeated '^' (markCount line.toList.length column span.length)

/-- a label when there is no source to quote -/
def bareLabel (l : Label) : String :=
  (if l.primary then "  --> " else "  ... ") ++ l.span.render ++ ": " ++ l.message ++ "\n"

/-- a label that only adds context -/
def contextLabel (r : Renderer) (file : Source) (l : Label) : String :=
  let (line, column, _) := file.lineOf l.span
  "  ... " ++ file.path ++ ":" ++ line.repr ++ ":" ++ column.repr ++ ": "
    ++ r.toned .gutter l.message ++ "\n"

/-- a primary label, with the line that it starts on -/
def primaryLabel (r : Renderer) (severity : Severity) (file : Source) (l : Label) : String :=
  let (line, column, text) := file.lineOf l.span
  let pad := Text.repeated ' ' line.repr.length
  pad ++ "--> " ++ file.path ++ ":" ++ line.repr ++ ":" ++ column.repr ++ "\n"
    ++ r.toned .gutter (pad ++ " |") ++ "\n"
    ++ r.toned .gutter (line.repr ++ " |") ++ " " ++ text ++ "\n"
    ++ r.toned .gutter (pad ++ " |")
    ++ r.toned severity.tone (underline text column l.span ++ " " ++ l.message) ++ "\n"

def label (r : Renderer) (severity : Severity) (l : Label) : String :=
  match r.source with
  | none => bareLabel l
  | some file => if l.primary then r.primaryLabel severity file l else r.contextLabel file l

def note (r : Renderer) (text : String) : String :=
  "  = " ++ r.toned .bold "note" ++ ": " ++ text ++ "\n"

/-- a whole diagnostic and the blank line after it -/
def diagnostic (r : Renderer) (d : Diagnostic) : String :=
  r.heading d ++ String.join (d.labels.map (r.label d.severity)) ++ String.join (d.notes.map r.note)
    ++ "\n"

def diagnostics (r : Renderer) (ds : List Diagnostic) : String :=
  String.join (ds.map r.diagnostic)

/-- how many warnings there were, unless there were none -/
def warningCount (n : Nat) : Option String :=
  match n with
  | 0 => none
  | 1 => some "1 warning emitted"
  | n => some (n.repr ++ " warnings emitted")

def errorCount (n : Nat) : String :=
  if n = 1 then "previous error" else n.repr ++ " previous errors"

/-- the closing line; nothing when there was nothing to report -/
def summary (r : Renderer) (errors warnings : Nat) : String :=
  match errors, warningCount warnings with
  | 0, none => ""
  | 0, some w => r.toned .warning "warning" ++ ": " ++ w ++ "\n"
  | n, none => r.toned .error "error" ++ ": aborting due to " ++ errorCount n ++ "\n"
  | n, some w => r.toned .error "error" ++ ": aborting due to " ++ errorCount n ++ "; " ++ w ++ "\n"

end Renderer

end TraceFront
