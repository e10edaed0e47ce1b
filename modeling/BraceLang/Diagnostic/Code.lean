/-! The registry of diagnostic codes. A code is written `E` and four digits; the first two of these give
    its category. -/

namespace BraceLang

/-- The part of the language that a problem belongs to. -/
inductive Category where
  | lexical
  | grammar
  | resolution
deriving DecidableEq

/-- The name of a category in reports. -/
def Category.text : Category → String
  | .lexical => "Lexical"
  | .grammar => "Syntax"
  | .resolution => "Resolution"

/-- The kinds of problem that are reported. -/
inductive Code where
  | unexpectedCharacter
  | unterminatedLiteral
  | unknownEscape
  | malformedNumber
  | nestedTemplate
  | unexpectedToken
  | tooFewItems
  | tooDeeplyNested
  | undefinedName
  | redefinition
  | breakOutsideLoop
  | continueOutsideLoop
  | returnOutsideFunction
deriving DecidableEq

namespace Code

/-- The code as it is written. -/
def text : Code → String
  | unexpectedCharacter => "E0001"
  | unterminatedLiteral => "E0002"
  | unknownEscape => "E0003"
  | malformedNumber => "E0004"
  | nestedTemplate => "E0005"
  | unexpectedToken => "E0100"
  | tooFewItems => "E0101"
  | tooDeeplyNested => "E0102"
  | undefinedName => "E0200"
  | redefinition => "E0201"
  | breakOutsideLoop => "E0204"
  | continueOutsideLoop => "E0205"
  | returnOutsideFunction => "E0206"

/-- What the code stands for, in a few words. -/
def title : Code → String
  | unexpectedCharacter => "unexpected character"
  | unterminatedLiteral => "unterminated literal or comment"
  | unknownEscape => "unknown escape sequence"
  | malformedNumber => "malformed number literal"
  | nestedTemplate => "nested string expression"
  | unexpectedToken => "unexpected token"
  | tooFewItems => "list needs more items"
  | tooDeeplyNested => "too deeply nested"
  | undefinedName => "undefined identifier"
  | redefinition => "redefinition"
  | breakOutsideLoop => "break outside of loop"
  | continueOutsideLoop => "continue outside of loop"
  | returnOutsideFunction => "return outside of function"

/-- The category of a code. -/
def category : Code → Category
  | unexpectedCharacter | unterminatedLiteral | unknownEscape | malformedNumber | nestedTemplate =>
    .lexical
  | unexpectedToken | tooFewItems | tooDeeplyNested => .grammar
  | undefinedName | redefinition | breakOutsideLoop | continueOutsideLoop | returnOutsideFunction =>
    .resolution

/-- Every code, in the order of its text. -/
def all : List Code :=
  [unexpectedCharacter, unterminatedLiteral, unknownEscape, malformedNumber, nestedTemplate,
    unexpectedToken, tooFewItems, tooDeeplyNested, undefinedName, redefinition, breakOutsideLoop,
    continueOutsideLoop, returnOutsideFunction]

/-- The code with the given text. -/
def ofText? (s : String) : Option Code := all.find? (·.text == s)

end Code

end BraceLang
