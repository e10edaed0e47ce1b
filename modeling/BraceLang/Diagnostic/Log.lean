import BraceLang.Diagnostic

/-! The log that every pass over a source reports into, with running counts of errors and warnings. -/

namespace BraceLang

/-- Diagnostics in the order they arrived. -/
structure Log where
  entries : Array Diagnostic
  errors : Nat
  warnings : Nat

namespace Log

/-- The log with nothing in it. -/
def empty : Log := ⟨#[], 0, 0⟩

/-- Adds a diagnostic at the end. -/
def push (log : Log) (d : Diagnostic) : Log :=
  { entries := log.entries.push d
    errors := if d.severity = .error then log.errors + 1 else log.errors
    warnings := if d.severity = .warning then log.warnings + 1 else log.warnings }

/-- Adds diagnostics in order. -/
def append (log : Log) (ds : List Diagnostic) : Log := ds.foldl push log

/-- Everything logged, in order. -/
def toList (log : Log) : List Diagnostic := log.entries.toList

/-- Whether an error was logged. -/
def hasErrors (log : Log) : Bool := 0 < log.errors

/-- Whether nothing was logged. -/
def isEmpty (log : Log) : Bool := log.entries.isEmpty

theorem append_append (log : Log) (ds es : List Diagnostic) :
    (log.append ds).append es = log.append (ds ++ es) := List.foldl_append.symm

@[simp] theorem toList_empty : empty.toList = [] := rfl

@[simp] theorem toList_push (log : Log) (d : Diagnostic) :
    (log.push d).toList = log.toList ++ [d] := by
  simp [push, toList]

@[simp] theorem toList_append (log : Log) (ds : List Diagnostic) :
    (log.append ds).toList = log.toList ++ ds := by
  induction ds generalizing log with
  | nil => simp [append]
  | cons d ds ih =>
    have step : log.append (d :: ds) = (log.push d).append ds := rfl
    rw [step, ih]
    simp

end Log

end BraceLang
