import BraceLang.Diagnostic
import BraceLang.Token.Role

/-! What can be wrong with the order of tokens, and how it is told. -/

namespace BraceLang

/-- What the grammar asked for. -/
inductive Expectation where
  | token (kind : Kind)
  | name
  | memberName
  | functionName
  | functionBody
  | closureBody
  | declaration
  | expression
  | type
  | templateEnd
deriving DecidableEq

/-- The name of an expectation in messages. -/
def Expectation.text : Expectation → String
  | token kind => kind.describe
  | name => "a name"
  | memberName => "a member name"
  | functionName => "a function name"
  | functionBody => "function body"
  | closureBody => "closure body"
  | declaration => "a declaration"
  | expression => "expression"
  | type => "type"
  | templateEnd => "'`'"

/-- How it is told that `found` stood where something else was expected. -/
def Expectation.message (expected : Expectation) (found : Kind) : String :=
  match expected, found with
  | token .lBrace, found => s!"expected '\x7b' to start block, found {found.describe}"
  | token .rBrace, found => s!"expected '\x7d' to close block, found {found.describe}"
  | token .rParen, .eof => "unclosed '(' - missing ')'"
  | token .rBracket, .eof => "unclosed '[' - missing ']'"
  | templateEnd, _ => "unclosed string expression - missing '`'"
  | name, found => s!"expected name, found {found.describe}"
  | expected, found => s!"expected {expected.text}, found {found.describe}"

/-- What to do about it. -/
def Expectation.hint? (expected : Expectation) (found : Kind) : Option String :=
  match expected, found with
  | token .colon, .eq => some "use ':' for types, '=' for values"
  | token .colon, _ => some "syntax: name: Type"
  | token .lBrace, _ => some "blocks start with '\x7b'"
  | token .rBrace, _ => some "every '\x7b' needs a matching '\x7d'"
  | functionBody, _ => some "a function body is a block, '=> expr' or ';'"
  | closureBody, _ => some "a closure body is a block or '=> expr'"
  | token .lParen, _ => some "calls and signatures need parentheses"
  | token .rParen, .eof => some "add ')' to close the parenthesis"
  | token .rParen, .semi => some "a 'for' header has three parts: init; condition; step"
  | token .rBracket, .eof => some "add ']' to close the bracket"
  | expression, .eq => some "put the value after '='"
  | expression, .semi => some "statement is incomplete"
  | expression, .rBrace => some "statement is incomplete"
  | expression, _ => some "try a value, variable, or function call"
  | name, .intLit => some "names can't start with a number"
  | name, found =>
    some (if found.roles.keyword then "keywords can't be used as names"
      else "names start with a letter or '_'")
  | memberName, _ => some "members are names or tuple indexes like '.0'"
  | functionName, _ => some "use a name, or an operator like '+' or '[]' for overloads"
  | token .eq, _ => some "constants and condition bindings need a value"
  | declaration, _ => some "start with 'func', 'struct', 'enum', 'type', 'var' or 'const'"
  | type, _ => some "try a type like 'i32', 'string', or a struct name"
  | templateEnd, .eof => some "close the string expression with '`'"
  | _, _ => none

/-- What is wrong at a token. -/
inductive ParseCause where
  | expected (what : Expectation) (found : Kind)
  | noOptions
  | noNames
  | tooDeeplyNested (limit : Nat)
deriving DecidableEq

namespace ParseCause

/-- The code a cause is reported under. -/
def code : ParseCause → Code
  | expected .. => .unexpectedToken
  | noOptions | noNames => .tooFewItems
  | tooDeeplyNested _ => .tooDeeplyNested

/-- The words a cause is reported with. -/
def message : ParseCause → String
  | expected what found => what.message found
  | noOptions => "an enum needs at least one option"
  | noNames => "a destructuring needs at least one name"
  | tooDeeplyNested _ => "too deeply nested"

/-- What to do about a cause. -/
def hint? : ParseCause → Option String
  | expected what found => what.hint? found
  | noOptions | noNames => none
  | tooDeeplyNested limit => some s!"nesting is limited to {limit} levels"

end ParseCause

/-- Something wrong with the tokens, and where. -/
structure ParseError where
  cause : ParseCause
  range : Range
deriving DecidableEq

/-- The diagnostic for a syntax error. -/
def ParseError.toDiagnostic (e : ParseError) : Diagnostic :=
  ((Diagnostic.ofMessage .error e.cause.message).withCode e.cause.code.text
    |>.located (some e.range)).withHelp? e.cause.hint?

end BraceLang
