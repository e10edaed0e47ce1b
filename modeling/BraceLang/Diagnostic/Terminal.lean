import BraceLang.Diagnostic
import BraceLang.Source

/-! Diagnostics as text for a terminal: a headline, each labelled source line with markers under it, and
    the notes and help. -/

namespace BraceLang.Terminal

/-- The colours that are used. -/
inductive Colour where
  | red
  | yellow
  | blue
  | cyan
deriving DecidableEq

/-- The number of a colour in an escape sequence. -/
def Colour.code : Colour → String
  | .red => "31"
  | .yellow => "33"
  | .blue => "34"
  | .cyan => "36"

/-- How a piece of text looks. -/
structure Style where
  bold : Bool
  colour : Option Colour
deriving DecidableEq

/-- The sequence that ends every style. -/
def reset : List Char := "\x1b[0m".toList

/-- The sequence that starts a style. -/
def Style.opening (s : Style) : List Char :=
  let codes := (if s.bold then ["1"] else []) ++ s.colour.toList.map Colour.code
  "\x1b[".toList ++ (";".intercalate codes).toList ++ ['m']

/-- The text with `opening` put back after every reset inside it, so that the style holds to the end. -/
def reopen (opening : List Char) : List Char → List Char
  | [] => []
  | c :: cs =>
    if reset.isPrefixOf (c :: cs) then
      reset ++ opening ++ reopen opening (cs.drop (reset.length - 1))
    else c :: reopen opening cs
termination_by cs => cs.length
decreasing_by all_goals simp; try omega

/-- The text in the given style, or plain if colours are off. -/
def Style.paint (s : Style) (colours : Bool) (text : String) : String :=
  if colours then
    String.ofList (s.opening ++ reopen s.opening text.toList ++ reset)
  else text

/-- Bold text in the terminal's own colour. -/
def bold : Style := ⟨true, none⟩

/-- Bold text in a colour. -/
def strong (c : Colour) : Style := ⟨true, some c⟩

/-- Text in a colour. -/
def plain (c : Colour) : Style := ⟨false, some c⟩

/-- The style of a severity's name. -/
def severityStyle : Severity → Style
  | .error => strong .red
  | .warning => strong .yellow
  | .info => strong .blue

/-- The style and the character that labels are marked with. -/
def labelStyle : LabelStyle → Style × Char
  | .primary => (strong .red, '^')
  | .secondary => (plain .blue, '-')

/-- Where and how to write: the source, the name it is given, and whether colours are on. -/
structure Printer where
  source : Source
  fileName : String
  colours : Bool

namespace Printer

/-- Writes about a source under its own name. -/
def ofSource (source : Source) (colours : Bool) : Printer := ⟨source, source.name, colours⟩

/-- A run of `n` spaces. -/
def blanks (n : Nat) : String := String.ofList (List.replicate n ' ')

/-- The text filled up on the left to `width` characters. -/
def padLeft (width : Nat) (text : String) : String := blanks (width - text.length) ++ text

/-- The first line: severity, code and message. -/
def headline (p : Printer) (d : Diagnostic) : String :=
  let severity := (severityStyle d.severity).paint p.colours d.severity.text
  let message := bold.paint p.colours d.message
  match d.code with
  | some code => s!"{severity}[{(strong .red).paint p.colours code}]: {message}\n"
  | none => s!"{severity}: {message}\n"

/-- The lines that labels start on, ascending and each once. -/
def labelledLines (d : Diagnostic) : List Nat :=
  ((d.labels.map (·.range.start.line)).mergeSort (· ≤ ·)).eraseReps

/-- The width of the widest line number, and at least 2. -/
def gutter (d : Diagnostic) : Nat :=
  match (labelledLines d).getLast? with
  | some line => max (toString line).length 2
  | none => 2

/-- The bar between the line numbers and the source. -/
def bar (p : Printer) : String := (plain .blue).paint p.colours "|"

/-- The column at which the marker of a label ends: the end of the label, or of its first line if it
    runs on, and at least one past its start. -/
def markerStop (p : Printer) (l : Label) : Nat :=
  let stop :=
    if l.range.stop.line = l.range.start.line then l.range.stop.column
    else (p.source.lineText l.range.start.line).utf8ByteSize + 1
  max stop (l.range.start.column + 1)

/-- The row under a source line that marks one label. -/
def marker (p : Printer) (gutter : Nat) (l : Label) : String :=
  let column := l.range.start.column
  let (style, mark) := labelStyle l.style
  let marks := style.paint p.colours (String.ofList (List.replicate (p.markerStop l - column) mark))
  let message := style.paint p.colours (l.message.getD "")
  s!"{blanks (gutter + 1)} {p.bar} {blanks (column - 1)}{marks} {message}\n"

/-- The row with a source line and its number. -/
def sourceRow (p : Printer) (gutter line : Nat) : String :=
  let number := (strong .blue).paint p.colours (padLeft (gutter + 1) (toString line))
  s!"{number} {p.bar} {p.source.lineText line}\n"

/-- A source line and the markers of the labels that start on it. -/
def excerpt (p : Printer) (d : Diagnostic) (gutter line : Nat) : String :=
  let labels := d.labels.filter (·.range.start.line == line)
  p.sourceRow gutter line ++ String.join (labels.map (p.marker gutter))

/-- The rows that say where the problem is. -/
def place (p : Printer) (d : Diagnostic) (gutter : Nat) : String :=
  match d.primaryRange? with
  | some range =>
    let arrow := (plain .blue).paint p.colours "-->"
    s!"{blanks (gutter - 1)}{arrow} {p.fileName}:{range.text}\n{blanks (gutter + 1)} {p.bar}\n"
  | none => ""

/-- A row under the excerpts, such as a note. -/
def remark (p : Printer) (gutter : Nat) (heading text : String) : String :=
  let sign := (plain .cyan).paint p.colours "="
  let heading := (strong .cyan).paint p.colours heading
  s!"{blanks (gutter + 1)} {sign} {heading}: {text}\n"

/-- The whole text of a diagnostic. -/
def format (p : Printer) (d : Diagnostic) : String :=
  let width := gutter d
  p.headline d ++ p.place d width
    ++ String.join ((labelledLines d).map (p.excerpt d width))
    ++ String.join (d.notes.map (p.remark width "note"))
    ++ String.join (d.help.toList.map (p.remark width "help"))

/-- The texts of several diagnostics, an empty line between two. -/
def formatAll (p : Printer) (ds : List Diagnostic) : String :=
  "\n".intercalate (ds.map p.format)

end Printer

end BraceLang.Terminal
