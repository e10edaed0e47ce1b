import BraceLang.Grammar.Types

/-! The grammar of expressions, from the loosest layer to the tightest: conditionals, assignments, binary
    operators by precedence, prefix operators, suffixes and primaries. -/

namespace BraceLang.Grammar

/-! ### Signatures and closures -/

/-- A parameter `name: Type = default`, the last two being optional. -/
def parameter (inner : Rules) : Parser Node := do
  let start ← here
  let name ← expectName
  let type ← optionalAfter .colon inner.type
  let default ← optionalAfter .eq inner.expression
  close start (.param name type default)

/-- Parameters between parentheses, and a result type after an arrow. -/
def callSignature (inner : Rules) : Parser Node := do
  let start ← here
  let _ ← expect .lParen
  let params ← list .rParen (parameter inner)
  close start (.signature params (← optionalAfter .arrow inner.type))

/-- Takes over an `async` that was taken before. -/
def takePendingAsync : Parser (Option Range) :=
  modifyGet fun s => (s.pendingAsync, { s with pendingAsync := none })

/-- The start of a closure and whether it is asynchronous. -/
def closureStart : Parser (Range × Bool) := do
  match ← takePendingAsync with
  | some range => return (range, true)
  | none =>
    let start ← here
    return (start, ← eat .kwAsync)

/-- The body of a closure: an expression after `=>`, or a block. -/
def closureBody (inner : Rules) : Parser Node := do
  if ← eat .fatArrow then inner.expression
  else if ← check .lBrace then inner.block
  else unexpected .closureBody

/-- A function without a name. -/
def closure (inner : Rules) : Parser Node := do
  let (start, isAsync) ← closureStart
  let _ ← expect .kwFunc
  let signature ← callSignature inner
  close start (.closure isAsync signature (← closureBody inner))

/-! ### Primaries -/

/-- What a literal token says. -/
def literal (token : Token) : Shape Node :=
  match token.kind, token.payload with
  | .intLit, some (.int n) => .int n
  | .floatLit, some (.float x) => .float x
  | .charLit, some (.char c) => .char c
  | .stringLit, some (.text s) => .str s
  | .boolLit, some (.bool b) => .bool b
  | _, _ => .null

/-- One part of a template: text, which is dropped if it is empty, or an expression. The closing
    backtick ends the parts. -/
def templateStep (inner : Rules) (parts : Array Node) : Parser (ForInStep (Array Node)) := do
  match ← kind with
  | .templateClose =>
    let _ ← advance
    return .done parts
  | .templateText =>
    let token ← advance
    if token.text.isEmpty then return .yield parts
    else return .yield (parts.push (← node (.str token.text) token.range))
  | .eof => unexpected .templateEnd
  | _ => return .yield (parts.push (← withStructLiterals true inner.expression))

/-- Text and expressions up to the closing backtick. -/
def template (inner : Rules) : Parser Node := do
  let start ← here
  let _ ← expect .templateOpen
  let parts ← repeating #[] (templateStep inner)
  close start (.template parts.toList)

/-- One more expression between parentheses, if a comma and no closing parenthesis stand before it. -/
def elementStep (inner : Rules) (elements : Array Node) : Parser (ForInStep (Array Node)) := do
  if (← eat .comma) && !(← check .rParen) then return .yield (elements.push (← inner.expression))
  else return .done elements

/-- The expressions between parentheses that start with `first`. -/
def moreElements (inner : Rules) (first : Node) : Parser (List Node) := do
  let elements ← repeating #[first] (elementStep inner)
  return elements.toList

/-- What stands after an opening parenthesis, and the closing one. -/
def insideParens (inner : Rules) : Parser (Shape Node) := do
  if ← check .rParen then
    let _ ← expect .rParen
    return .tuple []
  else
    let first ← inner.expression
    let isTuple ← check .comma
    let elements ← moreElements inner first
    let _ ← expect .rParen
    return if isTuple then .tuple elements else .group first

/-- Parentheses: `(e)` is a group; `()`, `(e,)` and `(a, b)` are tuples. -/
def parenthesized (inner : Rules) : Parser Node := do
  let start ← here
  let _ ← expect .lParen
  close start (← withStructLiterals true (insideParens inner))

/-- Whether the brace ahead starts the fields of a struct literal: it is closed at once, or a field
    name and a colon follow. -/
def atStructLiteral : Parser Bool := do
  match ← peek 1 with
  | .rBrace => return true
  | .name => return (← peek 2) == .colon
  | _ => return false

/-- A field of a struct literal. -/
def fieldInit (inner : Rules) : Parser Node := do
  let start ← here
  let name ← expectName
  let _ ← expect .colon
  close start (.fieldInit name (← inner.expression))

/-- A name, or a struct literal that starts with it. -/
def nameOrStructLiteral (inner : Rules) : Parser Node := do
  let start ← here
  let token ← advance
  let path ← node (.name token.text) token.range
  if (← get).structLiterals && (← check .lBrace) && (← atStructLiteral) then
    let _ ← expect .lBrace
    close start (.structLiteral path (← list .rBrace (fieldInit inner)))
  else return path

/-- Whether a `yield` ahead of this token has no value. -/
def endsYield : Kind → Bool
  | .semi | .rBrace | .rParen | .comma | .eof => true
  | _ => false

/-- A value, which is absent if the nearest token is one that `ends` picks out. -/
def optionalValue (ends : Kind → Bool) (inner : Rules) : Parser (Option Node) := do
  if ends (← kind) then return none else return some (← inner.expression)

/-- An expression that no operator outside it can take apart. -/
def primary (inner : Rules) : Parser Node := do
  let start ← here
  match ← kind with
  | .intLit | .floatLit | .charLit | .stringLit | .boolLit | .nullLit =>
    let token ← advance
    node (literal token) token.range
  | .templateOpen => template inner
  | .lParen => parenthesized inner
  | .lBrace => inner.block
  | .lBracket =>
    let _ ← advance
    close start (.array (← list .rBracket inner.expression))
  | .dot =>
    let _ ← advance
    close start (.dot (← expectName))
  | .name => nameOrStructLiteral inner
  | .kwFunc | .kwAsync => closure inner
  | .kwNew =>
    let _ ← advance
    let type ← inner.type
    let _ ← expect .lParen
    close start (.new type (← list .rParen inner.expression))
  | .kwYield =>
    let _ ← advance
    close start (.yield (← optionalValue endsYield inner))
  | .dotDotDot =>
    let _ ← advance
    close start (.spread (← inner.expression))
  | _ => unexpected .expression

/-! ### Operators -/

/-- The right side of a point: a name or a tuple index. -/
def memberName : Parser Node := do
  match ← kind with
  | .name =>
    let token ← advance
    node (.name token.text) token.range
  | .intLit =>
    let token ← advance
    node (.int token.int) token.range
  | _ => unexpected .memberName

/-- One suffix of `target`, if there is one. -/
def suffix? (inner : Rules) (target : Node) : Parser (Option (Shape Node)) := do
  match ← kind with
  | .plusPlus =>
    let _ ← advance
    return some (.postfixed .plusPlus target)
  | .minusMinus =>
    let _ ← advance
    return some (.postfixed .minusMinus target)
  | .dot =>
    let _ ← advance
    return some (.member target (← memberName) false)
  | .questionDot =>
    let _ ← advance
    return some (.member target (← memberName) true)
  | .lBracket =>
    let _ ← advance
    return some (.index target (← list .rBracket inner.expression))
  | .bang =>
    let _ ← advance
    if ← eat .lParen then return some (.macroCall target (← list .rParen inner.expression))
    else return some (.macroName target)
  | .lParen =>
    let _ ← advance
    return some (.call target (← list .rParen inner.expression))
  | .kwAs =>
    let _ ← advance
    return some (.cast target (← inner.type))
  | _ => return none

/-- One more suffix of an expression that begins at `start`. -/
def suffixStep (inner : Rules) (start : Range) (target : Node) : Parser (ForInStep Node) := do
  match ← suffix? inner target with
  | some shape => return .yield (← close start shape)
  | none => return .done target

/-- A primary with its suffixes. -/
def suffixed (inner : Rules) : Parser Node := do
  let start ← here
  repeating (← primary inner) (suffixStep inner start)

/-- An operand with the prefix operators before it. -/
def prefixed (inner : Rules) : Parser Node := do
  let op ← kind
  if op.roles.prefixOp then
    let start ← here
    let _ ← advance
    close start (.prefixed op (← inner.unary))
  else suffixed inner

/-- One more binary operator that binds tighter than `limit`, and its right operand. -/
def binaryStep (inner : Rules) (limit : Nat) (start : Range) (lhs : Node) :
    Parser (ForInStep Node) := do
  let op ← kind
  if op.roles.binary && op.precedence < limit then
    let _ ← advance
    let rhs ← inner.operand op.precedence
    return .yield (← close start (.binary op lhs rhs))
  else return .done lhs

/-- Operands joined by binary operators that bind tighter than `limit`. An operator ends the right
    operand of another that binds as tightly, so equal operators group to the left. -/
def binary (inner : Rules) (limit : Nat) : Parser Node := do
  let start ← here
  repeating (← prefixed inner) (binaryStep inner limit start)

/-- An assignment, or an expression that is none. The value extends as far as possible. -/
def assignment (inner : Rules) : Parser Node := do
  let start ← here
  let target ← binary inner Kind.loosest
  let op ← kind
  if op.roles.assignment then
    let _ ← advance
    close start (.assign op target (← inner.expression))
  else return target

/-- The branch between `?` and `:`, which is absent if the colon comes at once. -/
def middleBranch (inner : Rules) : Parser (Option Node) := do
  if ← eat .colon then return none
  else
    let branch ← inner.expression
    let _ ← expect .colon
    return some branch

/-- A conditional `c ? t : f` or `c ?: f`, or an expression that is none. -/
def expressionRule (inner : Rules) : Parser Node := do
  let start ← here
  let condition ← assignment inner
  if (← kind).roles.ternary then
    let _ ← advance
    let whenTrue ← middleBranch inner
    close start (.ternary condition whenTrue (← inner.expression))
  else return condition

end BraceLang.Grammar
