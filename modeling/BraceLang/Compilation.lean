import BraceLang.Binding
import BraceLang.Diagnostic.Report
import BraceLang.Diagnostic.Terminal
import BraceLang.Grammar.Program

/-! The front end as a whole: a source is parsed, and bound if it has no errors so far. The outcome can
    be shown on a terminal or given as a report. -/

namespace BraceLang

/-- How far the work on a source went. -/
inductive Phase where
  | parse
  | bind
deriving DecidableEq

/-- The name of a phase. -/
def Phase.text : Phase → String
  | .parse => "parse"
  | .bind => "bind"

/-- The outcome of the work on a source. -/
structure Compilation where
  program : Program
  log : Log
  /-- What binding did, if it was reached. -/
  summary : Option BindSummary
  phase : Phase

namespace Compilation

/-- Whether no error was found; warnings are allowed. -/
def isOk (c : Compilation) : Bool := !c.log.hasErrors

/-- Everything reported, as text for a terminal. -/
def render (c : Compilation) (source : Source) (colours : Bool) : String :=
  (Terminal.Printer.ofSource source colours).formatAll c.log.toList

/-- Everything reported, for machines. -/
def report (c : Compilation) (source : Source) : Report :=
  Report.ofDiagnostics source c.phase.text c.log.toList

end Compilation

/-- Parses a source and, if that finds no error, binds it. -/
def compile (source : Source) : Compilation :=
  let (program, log) := parse source
  if log.hasErrors then { program, log, summary := none, phase := .parse }
  else
    let (program, log, summary) := bind program log
    { program, log, summary := some summary, phase := .bind }

/-- Why a file cannot be used as a source. -/
inductive LoadCause where
  | missing
  | notText
deriving DecidableEq

/-- The words of the operating system or reader for a cause. -/
def LoadCause.text : LoadCause → String
  | .missing => "No such file or directory (os error 2)"
  | .notText => "stream did not contain valid UTF-8"

/-- A file that cannot be used as a source. -/
structure LoadError where
  path : String
  cause : LoadCause
deriving DecidableEq

/-- The words a failure is reported with. -/
def LoadError.message (e : LoadError) : String := s!"reading {e.path}: {e.cause.text}"

/-- The source number `id` that is held in a file, given the file's bytes if it exists. -/
def Source.ofFile (id : Nat) (path : String) (content : Option ByteArray) : Except LoadError Source :=
  match content with
  | none => .error ⟨path, .missing⟩
  | some bytes =>
    match String.fromUTF8? bytes with
    | some text => .ok (Source.ofText id path text)
    | none => .error ⟨path, .notText⟩

/-- Compiles a file, giving the source along with the outcome. -/
def compileFile (id : Nat) (path : String) (content : Option ByteArray) :
    Except LoadError (Source × Compilation) := do
  let source ← Source.ofFile id path content
  return (source, compile source)

end BraceLang
