import TraceFront.Text.Bytes

/-!
# Spans of a source

A span is a pair of byte offsets into a source, the second one exclusive.  Offsets are at most
`Span.maxOffset`: a larger one is cut down to it when a span is made from a range.

* `Span.ofRange`        the span of a byte range;
* `Span.merge`          the smallest span that covers two;
* `Span.lineColumn`     line and column of the start, both counted from one, the column in bytes.
-/

namespace TraceFront

/-- a range of byte offsets, `stop` excluded -/
structure Span where
  start : Nat
  stop : Nat
deriving DecidableEq, Inhabited

namespace Span

def maxOffset : Nat := 0xffffffff

/-- the span of a byte range, its ends cut down to `maxOffset` -/
def ofRange (start stop : Nat) : Span := ⟨min start maxOffset, min stop maxOffset⟩

def merge (a b : Span) : Span := ⟨min a.start b.start, max a.stop b.stop⟩

/-- the number of bytes covered, zero when the ends are out of order -/
def length (s : Span) : Nat := s.stop - s.start

def isEmpty (s : Span) : Bool := s.stop ≤ s.start

def render (s : Span) : String := s.start.repr ++ ".." ++ s.stop.repr

def newline : UInt8 := 10

/-- line and column of the offset `o` in a source with the given bytes: one more than the newlines
before it, and one more than the bytes since the last of them.  An offset past the end counts as
the end. -/
def lineColumnAt (o : Nat) (source : List UInt8) : Nat × Nat :=
  let before := source.take o
  (before.count newline + 1, (before.reverse.takeWhile (· != newline)).length + 1)

def lineColumn (s : Span) (source : String) : Nat × Nat :=
  lineColumnAt s.start (Text.bytes source)

theorem ofRange_of_le {start stop : Nat} (h : start ≤ maxOffset) (h' : stop ≤ maxOffset) :
    ofRange start stop = ⟨start, stop⟩ := by
  simp [ofRange, Nat.min_eq_left h, Nat.min_eq_left h']

theorem isEmpty_iff (s : Span) : s.isEmpty = true ↔ s.length = 0 := by
  simp only [isEmpty, length, decide_eq_true_eq]
  omega

end Span

end TraceFront
