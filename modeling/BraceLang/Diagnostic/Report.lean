import BraceLang.Diagnostic
import BraceLang.Source
import BraceLang.Text.Json

/-! Machine-readable reports: the diagnostics of one source with their categories and locations, and
    counts of errors and warnings. A report becomes a JSON document. -/

namespace BraceLang

namespace Report

open Text (Json)

/-- A place as reports give it. -/
def place (l : Location) : List (String × Json) :=
  [("line", .num l.line), ("column", .num l.column), ("byte_offset", .num l.pos)]

/-- The first line of a text, without its line break or a carriage return before that. -/
def firstLine (text : String) : String :=
  let line := text.toList.takeWhile (· != '\n')
  let broken := line.length < text.toList.length
  if broken && line.getLast? == some '\r' then String.ofList line.dropLast else String.ofList line

/-- Where a diagnostic is, with the source line it starts on. -/
def location (source : Source) (range : Range) : Json :=
  .obj (place range.start ++ [("source_line", .str (firstLine (source.coveringLines range)))])

/-- A field that is left out if it has no value. -/
def optional (name : String) (value : Option Json) : List (String × Json) :=
  value.toList.map (name, ·)

/-- A labelled range. -/
def label (l : Label) : Json :=
  .obj ([("role", .str l.style.text)] ++ optional "message" (l.message.map .str)
    ++ [("start", .obj (place l.range.start)), ("end", .obj (place l.range.stop))])

/-- One diagnostic. A code outside the registry has no category. -/
def diagnostic (source : Source) (d : Diagnostic) : Json :=
  let category := (d.code.bind Code.ofText?).map (·.category.text)
  .obj ([("severity", .str d.severity.text)]
    ++ optional "code" (d.code.map .str)
    ++ optional "category" (category.map .str)
    ++ [("message", .str d.message)]
    ++ optional "location" (d.primaryRange?.map (location source))
    ++ [("labels", .arr (d.labels.map label))]
    ++ (if d.notes.isEmpty then [] else [("notes", .arr (d.notes.map .str))])
    ++ optional "help" (d.help.map .str))

end Report

/-- The outcome of working on one source. -/
structure Report where
  file : String
  /-- Whether no error was found. -/
  success : Bool
  /-- How far the work went. -/
  phase : String
  diagnostics : List Text.Json
  errors : Nat
  warnings : Nat

namespace Report

open Text (Json)

/-- The report on diagnostics of a source. -/
def ofDiagnostics (source : Source) (phase : String) (ds : List Diagnostic) : Report :=
  let errors := ds.countP (·.severity == .error)
  { file := source.name
    success := errors == 0
    phase
    diagnostics := ds.map (diagnostic source)
    errors
    warnings := ds.countP (·.severity == .warning) }

/-- The number of the layout of reports. -/
def version : Nat := 1

/-- A report as a document. -/
def toJson (r : Report) : Json :=
  .obj [("version", .num version), ("file", .str r.file), ("success", .bool r.success),
    ("phase", .str r.phase), ("diagnostics", .arr r.diagnostics), ("error_count", .num r.errors),
    ("warning_count", .num r.warnings)]

/-- A report as text. -/
def text (r : Report) : String := r.toJson.pretty 0

end Report

end BraceLang
