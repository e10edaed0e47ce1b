/-! Places in a source text. Offsets, lines and columns all count from the start of the text in bytes;
    lines and columns begin at 1. -/

namespace BraceLang

/-- A byte offset with the line and column it falls on. -/
structure Location where
  pos : Nat
  line : Nat
  column : Nat
deriving DecidableEq

/-- The region of one source from `start` up to but not including `stop`. -/
structure Range where
  /-- The number of the source this is a region of. -/
  source : Nat
  start : Location
  stop : Location
deriving DecidableEq

namespace Range

/-- From the start of `a` to the further end of the two; `b` does not start before `a`. -/
def merge (a b : Range) : Range :=
  { a with stop := if a.stop.pos < b.stop.pos then b.stop else a.stop }

/-- The number of bytes covered. -/
def length (r : Range) : Nat := r.stop.pos - r.start.pos

/-- Whether nothing is covered. -/
def isEmpty (r : Range) : Bool := r.start.pos == r.stop.pos

/-- Whether `inner` lies in `outer`, in the same source. -/
def contains (outer inner : Range) : Bool :=
  outer.source == inner.source && outer.start.pos ≤ inner.start.pos &&
    inner.stop.pos ≤ outer.stop.pos

/-- Where the range starts, as `line:column`. -/
def text (r : Range) : String := s!"{r.start.line}:{r.start.column}"

end Range

end BraceLang
