import BraceLang.Diagnostic
import BraceLang.Text.Quoted

/-! What can be wrong with the characters of a source, and how it is told. -/

namespace BraceLang

/-- The bases of integers that start with `0` and a letter. -/
inductive Radix where
  | binary
  | octal
  | hexadecimal
deriving DecidableEq

/-- The name of a base. -/
def Radix.text : Radix → String
  | .binary => "binary"
  | .octal => "octal"
  | .hexadecimal => "hexadecimal"

/-- The things that have to be closed. -/
inductive Unclosed where
  | blockComment
  | charLiteral
  | stringLiteral
  | template
  /-- The expression between `${` and `}` of a template. -/
  | hole
deriving DecidableEq

/-- The name of what was left open. -/
def Unclosed.text : Unclosed → String
  | .blockComment => "block comment"
  | .charLiteral => "character literal"
  | .stringLiteral => "string literal"
  | .template | .hole => "string expression"

/-- How to close what was left open. -/
def Unclosed.hint : Unclosed → String
  | .blockComment => "add a closing '*/'"
  | .charLiteral => "add a closing '''"
  | .stringLiteral => "add a closing '\"'"
  | .template => "add a closing '`'"
  | .hole => "add a closing '\x7d' and '`'"

/-- What is wrong at a place in the text. -/
inductive LexCause where
  | unexpectedChar (c : Char)
  | unterminated (what : Unclosed)
  | emptyChar
  | unknownEscape (c : Char)
  | malformedNumber (radix : Radix)
  | integerTooLarge
  | nestedTemplate
deriving DecidableEq

namespace LexCause

/-- The code a cause is reported under. -/
def code : LexCause → Code
  | unexpectedChar _ => .unexpectedCharacter
  | unterminated _ | emptyChar => .unterminatedLiteral
  | unknownEscape _ => .unknownEscape
  | malformedNumber _ | integerTooLarge => .malformedNumber
  | nestedTemplate => .nestedTemplate

/-- An unknown escape stands for the character after the backslash, so it is only warned about. -/
def severity : LexCause → Severity
  | unknownEscape _ => .warning
  | _ => .error

/-- The words a cause is reported with. -/
def message : LexCause → String
  | unexpectedChar c => s!"unexpected character '{Text.Quoted.bare c}'"
  | unterminated what => s!"unterminated {what.text}"
  | emptyChar => "empty character literal"
  | unknownEscape c => s!"unknown escape sequence '\\{c}'"
  | malformedNumber radix => s!"malformed {radix.text} literal"
  | integerTooLarge => "integer literal is too large"
  | nestedTemplate => "nested string expressions are not supported"

/-- What to do about a cause. -/
def hint? : LexCause → Option String
  | unterminated what => some what.hint
  | unknownEscape _ => some "valid: \\n \\t \\v \\r \\a \\b \\\\ \\$ \\' \\\" \\xHH \\NNN"
  | integerTooLarge => some "the largest integer literal is 18446744073709551615"
  | nestedTemplate => some "move the inner template into a variable"
  | unexpectedChar _ | emptyChar | malformedNumber _ => none

end LexCause

/-- Something wrong with the text, and where. -/
structure LexError where
  cause : LexCause
  range : Range
deriving DecidableEq

/-- The diagnostic for a lexical error. -/
def LexError.toDiagnostic (e : LexError) : Diagnostic :=
  ((Diagnostic.ofMessage e.cause.severity e.cause.message).withCode e.cause.code.text
    |>.located (some e.range)).withHelp? e.cause.hint?

end BraceLang
