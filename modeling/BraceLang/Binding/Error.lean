import BraceLang.Diagnostic

/-! What can be wrong with names and jumps, and how it is told. -/

namespace BraceLang

/-- What is wrong with a name or a jump. -/
inductive BindCause where
  /-- A name that nothing in scope declares, and perhaps a question about another. -/
  | undefined (name : String) (suggestion : Option String)
  /-- A name declared again in its scope, and where it was declared first. -/
  | redefinition (name : String) (first : Option Range)
  | breakOutsideLoop
  | continueOutsideLoop
  | returnOutsideFunction
deriving DecidableEq

namespace BindCause

/-- The code a cause is reported under. -/
def code : BindCause → Code
  | undefined .. => .undefinedName
  | redefinition .. => .redefinition
  | breakOutsideLoop => .breakOutsideLoop
  | continueOutsideLoop => .continueOutsideLoop
  | returnOutsideFunction => .returnOutsideFunction

/-- The words a cause is reported with. -/
def message : BindCause → String
  | undefined name _ => s!"undefined identifier '{name}'"
  | redefinition name _ => s!"redefinition of '{name}'"
  | breakOutsideLoop => "'break' used outside a loop"
  | continueOutsideLoop => "'continue' used outside a loop"
  | returnOutsideFunction => "'return' used outside a function"

/-- The words at the place of the problem. -/
def label : BindCause → String
  | undefined .. => "not found in this scope"
  | redefinition .. => "redefined here"
  | breakOutsideLoop | continueOutsideLoop => "not inside 'while' or 'for'"
  | returnOutsideFunction => "not inside a function or closure"

/-- What to do about a cause. -/
def help? : BindCause → Option String
  | undefined _ suggestion => suggestion
  | redefinition name _ => some s!"rename one of the '{name}' declarations"
  | breakOutsideLoop | continueOutsideLoop | returnOutsideFunction => none

/-- A place that has to do with the problem, in words. -/
def related? : BindCause → Option (Range × String)
  | redefinition _ (some first) => some (first, "first declared here")
  | _ => none

end BindCause

/-- Something wrong with a name or a jump, and where if that is known. -/
structure BindError where
  cause : BindCause
  range : Option Range
deriving DecidableEq

/-- The diagnostic for a binding error. -/
def BindError.toDiagnostic (e : BindError) : Diagnostic :=
  let d := (Diagnostic.ofMessage .error e.cause.message).withCode e.cause.code.text
  let d := match e.range with
    | some range => d.withPrimary range e.cause.label
    | none => d
  let d := match e.cause.related? with
    | some (range, message) => d.withSecondary range message
    | none => d
  d.withHelp? e.cause.help?

end BraceLang
