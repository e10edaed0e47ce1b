import BraceLang.Source.LineMap
import BraceLang.Source.Location

/-! Source texts: a name and a text that never changes, with the map from offsets to lines. Every range
    made from a source carries its number, so ranges of two sources are never confused. -/

namespace BraceLang

/-- A named text. -/
structure Source where
  /-- Tells this source from every other, also from one with the same text. -/
  id : Nat
  name : String
  text : String
  lines : LineMap
  lines_eq : lines = LineMap.ofText text.toList

namespace Source

/-- The source number `id` with the given name and text. -/
def ofText (id : Nat) (name text : String) : Source :=
  { id, name, text, lines := LineMap.ofText text.toList, lines_eq := rfl }

/-- The characters of the text. -/
def chars (s : Source) : List Char := s.text.toList

/-- The length of the text in bytes. -/
def length (s : Source) : Nat := s.text.utf8ByteSize

/-- The location of an offset; one past the end counts as the end. -/
def location (s : Source) (pos : Nat) : Location :=
  let pos := min pos s.length
  let (line, column) := s.lines.lineColumn pos
  { pos, line, column }

/-- The range from `start` to `stop`, empty if they are out of order. -/
def range (s : Source) (start stop : Nat) : Range :=
  { source := s.id, start := s.location start, stop := s.location (max stop start) }

/-- The text between two offsets, or nothing if one of them is no place in the text. -/
def slice? (s : Source) (start stop : Nat) : Option String :=
  (Text.slice? s.chars start stop).map String.ofList

/-- The text of a range. -/
def slice (s : Source) (r : Range) : String :=
  (s.slice? r.start.pos r.stop.pos).getD ""

/-- The text of a line without its line break. -/
def lineText? (s : Source) (line : Nat) : Option String :=
  (s.lines.lineStart? line).bind fun start => s.slice? start (s.lines.lineStop s.length line)

/-- The text of a line, empty if there is no such line. -/
def lineText (s : Source) (line : Nat) : String :=
  (s.lineText? line).getD ""

/-- Every line that a range touches, the last line break left out. -/
def coveringLines (s : Source) (r : Range) : String :=
  let first := (s.lines.lineStart? r.start.line).getD 0
  let last := s.lines.lineStop s.length r.stop.line
  (s.slice? first (max last first)).getD ""

end Source

end BraceLang
