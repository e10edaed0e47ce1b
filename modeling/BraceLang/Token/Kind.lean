/-! Kinds of token: how each is spelled, how it is named in messages, and the roles it can play in the
    grammar. -/

namespace BraceLang

/-- The kinds of token. -/
inductive Kind where
  | eof
  | invalid
  -- literals
  | intLit
  | floatLit
  | charLit
  | stringLit
  | boolLit
  | nullLit
  -- templates: text between backticks with expressions in holes
  | templateOpen
  | templateText
  | templateClose
  | name
  -- keywords
  | kwFunc
  | kwVar
  | kwConst
  | kwStruct
  | kwEnum
  | kwType
  | kwIf
  | kwElse
  | kwWhile
  | kwFor
  | kwDefer
  | kwReturn
  | kwBreak
  | kwContinue
  | kwExport
  | kwOpaque
  | kwAsync
  | kwAwait
  | kwDelete
  | kwNew
  | kwYield
  | kwInit
  | kwAs
  | kwPrivate
  -- keywords that name a primitive type
  | tyVoid
  | tyBool
  | tyChar
  | tyString
  | tyI8
  | tyI16
  | tyI32
  | tyI64
  | tyU8
  | tyU16
  | tyU32
  | tyU64
  | tyF32
  | tyF64
  | tyIsize
  | tyUsize
  | tyAny
  -- binary operators
  | starStar
  | star
  | slash
  | percent
  | plus
  | minus
  | ltLt
  | gtGt
  | lt
  | gt
  | ltEq
  | gtEq
  | eqEq
  | bangEq
  | amp
  | caret
  | pipe
  | ampAmp
  | dotDot
  | pipePipe
  | questionQuestion
  -- assignment operators
  | eq
  | plusEq
  | minusEq
  | starEq
  | slashEq
  | percentEq
  | starStarEq
  | ltLtEq
  | gtGtEq
  | ampEq
  | caretEq
  | pipeEq
  | ampAmpEq
  | pipePipeEq
  | questionQuestionEq
  -- other operators
  | bang
  | tilde
  | plusPlus
  | minusMinus
  | question
  | questionDot
  | dot
  | dotDotDot
  | arrow
  | fatArrow
  | atSign
  -- delimiters
  | lParen
  | rParen
  | lBracket
  | rBracket
  | lBrace
  | rBrace
  | colon
  | semi
  | comma
deriving DecidableEq

namespace Kind

/-- How a kind is spelled; nothing for a kind whose tokens differ in spelling. -/
def text : Kind → String
  | eof | invalid | intLit | floatLit | charLit | stringLit | boolLit | templateText | name => ""
  | nullLit => "null"
  | templateOpen | templateClose => "`"
  | kwFunc => "func"
  | kwVar => "var"
  | kwConst => "const"
  | kwStruct => "struct"
  | kwEnum => "enum"
  | kwType => "type"
  | kwIf => "if"
  | kwElse => "else"
  | kwWhile => "while"
  | kwFor => "for"
  | kwDefer => "defer"
  | kwReturn => "return"
  | kwBreak => "break"
  | kwContinue => "continue"
  | kwExport => "export"
  | kwOpaque => "opaque"
  | kwAsync => "async"
  | kwAwait => "await"
  | kwDelete => "delete"
  | kwNew => "new"
  | kwYield => "yield"
  | kwInit => "init"
  | kwAs => "as"
  | kwPrivate => "private"
  | tyVoid => "void"
  | tyBool => "bool"
  | tyChar => "char"
  | tyString => "string"
  | tyI8 => "i8"
  | tyI16 => "i16"
  | tyI32 => "i32"
  | tyI64 => "i64"
  | tyU8 => "u8"
  | tyU16 => "u16"
  | tyU32 => "u32"
  | tyU64 => "u64"
  | tyF32 => "f32"
  | tyF64 => "f64"
  | tyIsize => "isize"
  | tyUsize => "usize"
  | tyAny => "any"
  | starStar => "**"
  | star => "*"
  | slash => "/"
  | percent => "%"
  | plus => "+"
  | minus => "-"
  | ltLt => "<<"
  | gtGt => ">>"
  | lt => "<"
  | gt => ">"
  | ltEq => "<="
  | gtEq => ">="
  | eqEq => "=="
  | bangEq => "!="
  | amp => "&"
  | caret => "^"
  | pipe => "|"
  | ampAmp => "&&"
  | dotDot => ".."
  | pipePipe => "||"
  | questionQuestion => "??"
  | eq => "="
  | plusEq => "+="
  | minusEq => "-="
  | starEq => "*="
  | slashEq => "/="
  | percentEq => "%="
  | starStarEq => "**="
  | ltLtEq => "<<="
  | gtGtEq => ">>="
  | ampEq => "&="
  | caretEq => "^="
  | pipeEq => "|="
  | ampAmpEq => "&&="
  | pipePipeEq => "||="
  | questionQuestionEq => "??="
  | bang => "!"
  | tilde => "~"
  | plusPlus => "++"
  | minusMinus => "--"
  | question => "?"
  | questionDot => "?."
  | dot => "."
  | dotDotDot => "..."
  | arrow => "->"
  | fatArrow => "=>"
  | atSign => "@"
  | lParen => "("
  | rParen => ")"
  | lBracket => "["
  | rBracket => "]"
  | lBrace => "\x7b"
  | rBrace => "\x7d"
  | colon => ":"
  | semi => ";"
  | comma => ","

/-- How a kind is named in messages. -/
def describe : Kind → String
  | eof => "end of file"
  | invalid => "an invalid token"
  | intLit | floatLit => "a number"
  | charLit => "a character"
  | stringLit => "a string"
  | boolLit => "'true' or 'false'"
  | templateText => "string text"
  | templateOpen => "start of string expression"
  | templateClose => "end of string expression"
  | name => "a name"
  | kind => s!"'{kind.text}'"

/-- The keywords with one spelling of their own, primitive types included. -/
def keywords : List Kind :=
  [kwFunc, kwVar, kwConst, kwStruct, kwEnum, kwType, kwIf, kwElse, kwWhile, kwFor, kwDefer, kwReturn,
    kwBreak, kwContinue, kwExport, kwOpaque, kwAsync, kwAwait, kwDelete, kwNew, kwYield, kwInit, kwAs,
    kwPrivate, tyVoid, tyBool, tyChar, tyString, tyI8, tyI16, tyI32, tyI64, tyU8, tyU16, tyU32, tyU64,
    tyF32, tyF64, tyIsize, tyUsize, tyAny]

/-- The operators and delimiters, longer spellings before shorter ones. -/
def symbols : List Kind :=
  [starStarEq, ltLtEq, gtGtEq, ampAmpEq, pipePipeEq, questionQuestionEq, dotDotDot,
    starStar, ltLt, gtGt, ltEq, gtEq, eqEq, bangEq, ampAmp, dotDot, pipePipe, questionQuestion,
    plusEq, minusEq, starEq, slashEq, percentEq, ampEq, caretEq, pipeEq, plusPlus, minusMinus,
    questionDot, arrow, fatArrow,
    star, slash, percent, plus, minus, lt, gt, amp, caret, pipe, eq, bang, tilde, question, dot,
    atSign, lParen, rParen, lBracket, rBracket, lBrace, rBrace, colon, semi, comma]

/-- The kind of a word that is not a plain name. -/
def ofWord? (word : String) : Option Kind :=
  if word = "true" ∨ word = "false" then some boolLit
  else if word = nullLit.text then some nullLit
  else keywords.find? (·.text == word)

/-- The longest operator or delimiter at the start of `cs`. -/
def ofSymbol? (cs : List Char) : Option Kind :=
  symbols.find? (·.text.toList.isPrefixOf cs)

end Kind

end BraceLang
