import BraceLang.Text.Utf8

/-! Line starts of a text. The map answers which line and column a byte offset falls on, and where a
    line begins and what it holds. -/

namespace BraceLang

/-- The offsets at which the lines of a text begin, in order; the first is 0. -/
structure LineMap where
  starts : List Nat
deriving DecidableEq

/-- Lines and columns past this number are given as this number. -/
def lineLimit : Nat := 4294967295

/-- The number `n`, or the limit on lines and columns if it is smaller. -/
def saturate (n : Nat) : Nat := min n lineLimit

namespace LineMap

/-- The offsets just after each line break of a text that begins at offset `pos`. -/
def startsAfter : Nat → List Char → List Nat
  | _, [] => []
  | pos, c :: cs =>
    let next := pos + c.utf8Size
    if c = '\n' then next :: startsAfter next cs else startsAfter next cs

/-- The line map of a text. -/
def ofText (text : List Char) : LineMap := ⟨0 :: startsAfter 0 text⟩

/-- The line and column of an offset, which may lie past the end of the text. -/
def lineColumn (m : LineMap) (offset : Nat) : Nat × Nat :=
  let begun := m.starts.takeWhile (· ≤ offset)
  (saturate begun.length, saturate (offset - begun.getLastD 0 + 1))

/-- The offset at which a line begins. -/
def lineStart? (m : LineMap) (line : Nat) : Option Nat :=
  if line = 0 then none else m.starts[line - 1]?

/-- The offset at which a line ends, its line break left out, in a text of `length` bytes. -/
def lineStop (m : LineMap) (length line : Nat) : Nat :=
  match m.lineStart? (line + 1) with
  | some next => next - 1
  | none => length

/-- The number of lines. A text that ends with a line break has an empty last line. -/
def lineCount (m : LineMap) : Nat := saturate m.starts.length

end LineMap

end BraceLang
