import BraceLang.Source
import BraceLang.Token
import BraceLang.Token.Error
import BraceLang.Token.Escape

/-! Looking at the text: which characters belong together at a place in it, and which tokens they are.
    Blanks and comments give no token; what cannot be read is reported and skipped. Inside the hole of a
    template the braces are counted, so that the one that closes the hole is known. -/

namespace BraceLang

/-! ### Places in the text -/

/-- A place in a text: what lies behind it, nearest first, and what lies ahead. -/
structure Cursor where
  /-- The number of bytes behind. -/
  pos : Nat
  behind : List Char
  ahead : List Char

/-- The place `n` characters further, or the end of the text. -/
def Cursor.advance (c : Cursor) (n : Nat) : Cursor :=
  { pos := c.pos + Text.byteLength (c.ahead.take n)
    behind := (c.ahead.take n).reverseAux c.behind
    ahead := c.ahead.drop n }

/-- Reads tokens off a source. -/
structure Lexer where
  source : Source
  cursor : Cursor
  /-- Tokens that were read along with an earlier one. -/
  pending : List Token
  /-- Inside a hole of a template, the number of braces open in it. -/
  hole : Option Nat

/-- What one look at the text gives: some tokens or, for blanks, comments and what cannot be read,
    none. -/
structure Scan where
  /-- The number of characters taken after the first. -/
  length : Nat
  tokens : List Token
  errors : List LexError
  /-- The braces open in the hole of a template, as in `Lexer`. -/
  hole : Option Nat

/-! ### Classes of characters -/

/-- A character between tokens. -/
def isBlank (c : Char) : Bool :=
  c == ' ' || c == '\t' || c == '\r' || c == '\n' || c == '\x0c'

/-- A character that a name or keyword may start with. -/
def isWordStart (c : Char) : Bool := c.isAlpha || c == '_'

/-- A character that a name or keyword may go on with. -/
def isWordPart (c : Char) : Bool := c.isAlphanum || c == '_'

/-- The base of an integer, by the letter after its first zero. -/
def Radix.ofLetter? (c : Char) : Option Radix :=
  match c with
  | 'x' | 'X' => some .hexadecimal
  | 'b' | 'B' => some .binary
  | 'o' | 'O' => some .octal
  | _ => none

/-- The number of digits of a base. -/
def Radix.base : Radix → Nat
  | .binary => 2
  | .octal => 8
  | .hexadecimal => 16

/-! ### Pieces of text -/

/-- The length of the rest of a block comment, its end included, inside `depth` further comments;
    nothing if it is not closed. Comments nest. -/
def blockCommentLength? : Nat → List Char → Option Nat
  | depth, '/' :: '*' :: cs => (blockCommentLength? (depth + 1) cs).map (· + 2)
  | 0, '*' :: '/' :: _ => some 2
  | depth + 1, '*' :: '/' :: cs => (blockCommentLength? depth cs).map (· + 2)
  | depth, _ :: cs => (blockCommentLength? depth cs).map (· + 1)
  | _, [] => none

/-- The number of characters before the first `mark` that no backslash takes. -/
def unescapedLength? (mark : Char) : List Char → Option Nat
  | [] => none
  | ['\\'] => none
  | '\\' :: _ :: cs => (unescapedLength? mark cs).map (· + 2)
  | c :: cs => if c = mark then some 0 else (unescapedLength? mark cs).map (· + 1)

/-- How a segment of template text ends. -/
inductive SegmentEnd where
  /-- At the closing backtick. -/
  | backtick
  /-- At the start of a hole. -/
  | hole
  /-- With the whole text. -/
  | input
deriving DecidableEq

/-- The number of characters of template text, and how it ends. -/
def segmentLength : List Char → Nat × SegmentEnd
  | [] => (0, .input)
  | ['\\'] => (1, .input)
  | '\\' :: _ :: cs => let (n, stop) := segmentLength cs; (n + 2, stop)
  | '\x60' :: _ => (0, .backtick)
  | '$' :: '\x7b' :: _ => (0, .hole)
  | _ :: cs => let (n, stop) := segmentLength cs; (n + 1, stop)

/-- The part of a number after the point. -/
structure Fraction where
  digits : List Char
  exponent : Int
  /-- The number of characters, point and exponent mark included. -/
  length : Nat

/-- The digits after a point at the start of `cs`. -/
def fractionDigits (cs : List Char) : List Char :=
  match cs with
  | '.' :: ds => ds.takeWhile Char.isDigit
  | _ => []

/-- The exponent at the start of `cs` and the number of its characters. -/
def exponentPart? (cs : List Char) : Option (Int × Nat) :=
  let signed (negative : Bool) (marks : Nat) (ds : List Char) : Option (Int × Nat) :=
    let digits := ds.takeWhile Char.isDigit
    let value : Int := positional 10 digits
    if digits.isEmpty then none else some (if negative then -value else value, marks + digits.length)
  let unsigned (ds : List Char) : Option (Int × Nat) :=
    match ds with
    | '-' :: ds => signed true 2 ds
    | '+' :: ds => signed false 2 ds
    | ds => signed false 1 ds
  match cs with
  | 'e' :: ds => unsigned ds
  | 'E' :: ds => unsigned ds
  | _ => none

/-- The fraction and exponent at the start of `cs`, if there is either. -/
def fraction? (cs : List Char) : Option Fraction :=
  let digits := fractionDigits cs
  let taken := if digits.isEmpty then 0 else digits.length + 1
  match exponentPart? (cs.drop taken) with
  | some (exponent, length) => some ⟨digits, exponent, taken + length⟩
  | none => if digits.isEmpty then none else some ⟨digits, 0, taken⟩

/-- The greatest integer a literal may have. -/
def maxInteger : Nat := 18446744073709551615

namespace Lexer

/-- The lexer at the start of a source. -/
def start (source : Source) : Lexer :=
  { source, cursor := ⟨0, [], source.chars⟩, pending := [], hole := none }

/-- The range of `length` bytes that begins `offset` bytes after the cursor. -/
def rangeAt (lx : Lexer) (offset length : Nat) : Range :=
  lx.source.range (lx.cursor.pos + offset) (lx.cursor.pos + offset + length)

/-- The range of the characters `cs`, which stand at the cursor. -/
def rangeOf (lx : Lexer) (cs : List Char) : Range := lx.rangeAt 0 (Text.byteLength cs)

/-- Takes characters and gives no token. -/
def skip (lx : Lexer) (length : Nat) (errors : List LexError) : Scan := ⟨length, [], errors, lx.hole⟩

/-- Takes characters and gives one token. -/
def emit (lx : Lexer) (length : Nat) (token : Token) (errors : List LexError) : Scan :=
  ⟨length, [token], errors, lx.hole⟩

/-! ### Comments, words and numbers -/

/-- A block comment, `body` being the text after its opening. -/
def blockComment (lx : Lexer) (body : List Char) : Scan :=
  match blockCommentLength? 0 body with
  | some n => lx.skip (1 + n) []
  | none => lx.skip (1 + body.length) [⟨.unterminated .blockComment, lx.rangeAt 0 2⟩]

/-- A name, keyword, truth value or null. -/
def word (lx : Lexer) (first : Char) (rest : List Char) : Scan :=
  let chars := first :: rest.takeWhile isWordPart
  let text := String.ofList chars
  let range := lx.rangeOf chars
  let token : Token :=
    match Kind.ofWord? text with
    | some .boolLit => ⟨.boolLit, range, some (.bool (text == "true"))⟩
    | some kind => .bare kind range
    | none => ⟨.name, range, some (.text text)⟩
  lx.emit (chars.length - 1) token []

/-- The scan of an integer with the given value, spelled `chars`. -/
def integer (lx : Lexer) (chars : List Char) (value : Nat) : Scan :=
  let range := lx.rangeOf chars
  if value ≤ maxInteger then
    lx.emit (chars.length - 1) ⟨.intLit, range, some (.int value)⟩ []
  else
    lx.emit (chars.length - 1) (.bare .invalid range) [⟨.integerTooLarge, range⟩]

/-- An integer that starts with `0` and the letter of a base, `rest` being the text after them. With
    no digit of that base it takes in the whole word and is invalid. -/
def radixInteger (lx : Lexer) (radix : Radix) (letter : Char) (rest : List Char) : Scan :=
  let digits := rest.takeWhile (isDigitIn radix.base)
  if digits.isEmpty then
    let chars := '0' :: letter :: rest.takeWhile isWordPart
    let range := lx.rangeOf chars
    lx.emit (chars.length - 1) (.bare .invalid range) [⟨.malformedNumber radix, range⟩]
  else
    lx.integer ('0' :: letter :: digits) (positional radix.base digits)

/-- Whether the cursor stands right after a single point, so that a number there is a tuple index and
    takes no fraction. -/
def afterPoint (lx : Lexer) : Bool :=
  match lx.cursor.behind with
  | '.' :: '.' :: _ => false
  | '.' :: _ => true
  | _ => false

/-- A decimal integer or floating-point number. -/
def decimalNumber (lx : Lexer) (first : Char) (rest : List Char) : Scan :=
  let digits := first :: rest.takeWhile Char.isDigit
  match if lx.afterPoint then none else fraction? (rest.drop (digits.length - 1)) with
  | some fraction =>
    let length := digits.length + fraction.length
    let value := Decimal.Double.ofDecimal (positional 10 (digits ++ fraction.digits))
      (fraction.exponent - fraction.digits.length)
    let range := lx.rangeOf ((first :: rest).take length)
    lx.emit (length - 1) ⟨.floatLit, range, some (.float value)⟩ []
  | none => lx.integer digits (positional 10 digits)

/-! ### Characters and strings -/

/-- What a character literal says, the number of characters that say it, and what is wrong with them;
    `rest` is the text after the opening quote and starts with neither a quote nor a line break. -/
def charValue (lx : Lexer) (first : Char) (rest : List Char) : Char × Nat × List LexError :=
  if first = '\\' then
    let escape := Escape.decode rest
    let length := Text.byteLength (first :: rest.take escape.length)
    let errors := if escape.known then []
      else [⟨.unknownEscape escape.value, lx.rangeAt 1 length⟩]
    (escape.value, escape.length + 1, errors)
  else (first, 1, [])

/-- A character literal. One that is empty or not closed gives no token. -/
def charLiteral (lx : Lexer) (rest : List Char) : Scan :=
  match rest with
  | [] => lx.skip 0 [⟨.unterminated .charLiteral, lx.rangeAt 0 1⟩]
  | '\n' :: _ => lx.skip 0 [⟨.unterminated .charLiteral, lx.rangeAt 0 1⟩]
  | '\x27' :: _ => lx.skip 1 [⟨.emptyChar, lx.rangeAt 0 2⟩]
  | c :: body =>
    let (value, length, errors) := lx.charValue c body
    if (rest.drop length).head? = some '\x27' then
      let range := lx.rangeAt 0 (Text.byteLength (rest.take length) + 2)
      lx.emit (length + 1) ⟨.charLit, range, some (.char value)⟩ errors
    else
      let range := lx.rangeAt 0 (Text.byteLength (rest.take length) + 1)
      lx.skip length (errors ++ [⟨.unterminated .charLiteral, range⟩])

/-- A string literal. One that is not closed runs to the end of the text. -/
def stringLiteral (lx : Lexer) (rest : List Char) : Scan :=
  match unescapedLength? '"' rest with
  | some n =>
    let text := rest.take n
    let range := lx.rangeAt 0 (Text.byteLength text + 2)
    lx.emit (n + 1) ⟨.stringLit, range, some (.text (String.ofList text))⟩ []
  | none =>
    let range := lx.rangeAt 0 (Text.byteLength rest + 1)
    lx.emit rest.length ⟨.stringLit, range, some (.text (String.ofList rest))⟩
      [⟨.unterminated .stringLiteral, lx.rangeAt 0 1⟩]

/-! ### Templates -/

/-- The token of template text, which starts one byte after the cursor. -/
def segmentToken (lx : Lexer) (text : List Char) : Token :=
  ⟨.templateText, lx.rangeAt 1 (Text.byteLength text), some (.text (String.ofList text))⟩

/-- Template text after a backtick or, if `resumed`, after the brace that closes a hole. Empty text
    gives no token, except between two holes. -/
def templateText (lx : Lexer) (rest : List Char) (resumed : Bool) : Scan :=
  let (n, stop) := segmentLength rest
  let text := rest.take n
  let size := Text.byteLength text
  let segment := if text.isEmpty then [] else [lx.segmentToken text]
  match stop with
  | .backtick => ⟨n + 1, segment ++ [.bare .templateClose (lx.rangeAt (size + 1) 1)], [], none⟩
  | .hole =>
    let between := if resumed then [lx.segmentToken text] else segment
    ⟨n + 2, between, [], some 0⟩
  | .input =>
    ⟨n, segment ++ [.bare .templateClose (lx.rangeAt (size + 1) 0)],
      [⟨.unterminated .template, lx.rangeAt 1 size⟩], none⟩

/-- A template inside the hole of another. It is not supported, and is read as plain text up to the
    next backtick. -/
def nestedTemplate (lx : Lexer) (rest : List Char) : Scan :=
  let opening := Token.bare .templateOpen (lx.rangeAt 0 1)
  let errors := [⟨.nestedTemplate, lx.rangeAt 0 1⟩]
  match unescapedLength? '\x60' rest with
  | some n =>
    let text := rest.take n
    let close := Token.bare .templateClose (lx.rangeAt (Text.byteLength text + 1) 1)
    ⟨n + 1, [opening, lx.segmentToken text, close], errors, lx.hole⟩
  | none =>
    let close := Token.bare .templateClose (lx.rangeAt (Text.byteLength rest + 1) 0)
    ⟨rest.length, [opening, lx.segmentToken rest, close], errors, lx.hole⟩

/-- A template, `rest` being the text after its opening backtick. -/
def template (lx : Lexer) (rest : List Char) : Scan :=
  match lx.hole with
  | some _ => lx.nestedTemplate rest
  | none =>
    let scan := lx.templateText rest false
    { scan with tokens := Token.bare .templateOpen (lx.rangeAt 0 1) :: scan.tokens }

/-- An operator or delimiter. Braces inside a hole are counted, and the one that closes the hole goes
    back to template text. -/
def symbol (lx : Lexer) (kind : Kind) (rest : List Char) : Scan :=
  let length := kind.text.toList.length
  let token := Token.bare kind (lx.rangeAt 0 length)
  match kind, lx.hole with
  | .lBrace, some depth => ⟨0, [token], [], some (depth + 1)⟩
  | .rBrace, some 0 => lx.templateText rest true
  | .rBrace, some (depth + 1) => ⟨0, [token], [], some depth⟩
  | _, _ => lx.emit (length - 1) token []

/-! ### One look at the text -/

/-- One look at the text `first :: rest` at the cursor. -/
def scan (lx : Lexer) (first : Char) (rest : List Char) : Scan :=
  if isBlank first then lx.skip (rest.takeWhile isBlank).length []
  else if isWordStart first then lx.word first rest
  else if first.isDigit then
    match first, rest with
    | '0', letter :: digits =>
      match Radix.ofLetter? letter with
      | some radix => lx.radixInteger radix letter digits
      | none => lx.decimalNumber first rest
    | _, _ => lx.decimalNumber first rest
  else
    match first, rest with
    | '/', '/' :: _ => lx.skip (rest.takeWhile (· != '\n')).length []
    | '/', '*' :: body => lx.blockComment body
    | '\x27', _ => lx.charLiteral rest
    | '"', _ => lx.stringLiteral rest
    | '\x60', _ => lx.template rest
    | _, _ =>
      match Kind.ofSymbol? (first :: rest) with
      | some kind => lx.symbol kind rest
      | none => lx.skip 0 [⟨.unexpectedChar first, lx.rangeOf [first]⟩]

end Lexer

end BraceLang
