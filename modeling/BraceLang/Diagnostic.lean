import BraceLang.Diagnostic.Code
import BraceLang.Source.Location

/-! Diagnostics: what is told to the user about a source. A diagnostic starts from a severity and a
    message, and a code, labels, notes and a help are added one by one. -/

namespace BraceLang

/-- How much a diagnostic matters. Only an error makes a source unacceptable. -/
inductive Severity where
  | error
  | warning
  | info
deriving DecidableEq

/-- The name of a severity. -/
def Severity.text : Severity → String
  | .error => "error"
  | .warning => "warning"
  | .info => "info"

/-- A primary label marks where the problem is, a secondary one a place that has to do with it. -/
inductive LabelStyle where
  | primary
  | secondary
deriving DecidableEq

/-- The name of a label style. -/
def LabelStyle.text : LabelStyle → String
  | .primary => "primary"
  | .secondary => "secondary"

/-- A marked range, with words about it or none. -/
structure Label where
  range : Range
  style : LabelStyle
  message : Option String
deriving DecidableEq

/-- One thing told about a source. -/
structure Diagnostic where
  severity : Severity
  code : Option String
  message : String
  labels : List Label
  notes : List String
  help : Option String
deriving DecidableEq

namespace Diagnostic

/-- A diagnostic with only a severity and a message. -/
def ofMessage (severity : Severity) (message : String) : Diagnostic :=
  { severity, code := none, message, labels := [], notes := [], help := none }

/-- Gives the code; the last one given stays. -/
def withCode (d : Diagnostic) (code : String) : Diagnostic :=
  { d with code := some code }

/-- Marks one more range. -/
def withLabel (d : Diagnostic) (range : Range) (style : LabelStyle) (message : Option String) :
    Diagnostic :=
  { d with labels := d.labels ++ [⟨range, style, message⟩] }

/-- Marks where the problem is, if that is known, without words. -/
def located (d : Diagnostic) (range : Option Range) : Diagnostic :=
  match range with
  | some range => d.withLabel range .primary none
  | none => d

/-- Marks where the problem is, in words. -/
def withPrimary (d : Diagnostic) (range : Range) (message : String) : Diagnostic :=
  d.withLabel range .primary (some message)

/-- Marks a related place, in words. -/
def withSecondary (d : Diagnostic) (range : Range) (message : String) : Diagnostic :=
  d.withLabel range .secondary (some message)

/-- Adds a note. -/
def withNote (d : Diagnostic) (note : String) : Diagnostic :=
  { d with notes := d.notes ++ [note] }

/-- Gives the help; the last one given stays. -/
def withHelp (d : Diagnostic) (help : String) : Diagnostic :=
  { d with help := some help }

/-- Gives the help if there is one to give. -/
def withHelp? (d : Diagnostic) (help : Option String) : Diagnostic :=
  match help with
  | some help => d.withHelp help
  | none => d

/-- Where the problem is: the first primary label, or the first label if none is primary. -/
def primaryRange? (d : Diagnostic) : Option Range :=
  ((d.labels.find? (·.style == .primary)).or d.labels.head?).map (·.range)

/-- The related places, in order. -/
def secondaryRanges (d : Diagnostic) : List Range :=
  (d.labels.filter (·.style == .secondary)).map (·.range)

/-- Whether this makes the source unacceptable. -/
def isError (d : Diagnostic) : Bool := d.severity == .error

end Diagnostic

end BraceLang
