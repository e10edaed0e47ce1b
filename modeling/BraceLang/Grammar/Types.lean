import BraceLang.Grammar.Parser

/-! The grammar of types: primitive and named types, tuples, functions and pointers, followed by any
    number of `[]`, `[size]` and `?`. -/

namespace BraceLang.Grammar

/-- The size between the brackets of an array type, if there is one. -/
def arraySize (inner : Rules) : Parser (Option Node) := do
  if ← check .rBracket then return none
  else return some (← withStructLiterals true inner.expression)

/-- One suffix of a type that begins at `start`. Arguments of a generic have been taken already, so
    every bracket opens an array suffix. -/
def typeSuffixStep (inner : Rules) (start : Range) (type : Node) : Parser (ForInStep Node) := do
  if ← eat .lBracket then
    let size ← arraySize inner
    let _ ← expect .rBracket
    return .yield (← close start (.arrayType type size))
  else if ← eat .question then return .yield (← close start (.optional type))
  else return .done type

/-- Array and optional suffixes after a type that begins at `start`. -/
def typeSuffixes (inner : Rules) (start : Range) (type : Node) : Parser Node :=
  repeating type (typeSuffixStep inner start)

/-- Whether the bracket ahead opens an array suffix: it is empty, holds one integer or starts with a
    macro. Otherwise it opens the arguments of a generic. -/
def atArraySuffix : Parser Bool := do
  match ← peek 1 with
  | .rBracket => return true
  | .intLit => return (← peek 2) == .rBracket
  | .name => return (← peek 2) == .bang
  | _ => return false

/-- A point and the name after it. -/
def pathStep (names : Array Ident) : Parser (ForInStep (Array Ident)) := do
  if (← check .dot) && (← peek 1) == .name then
    let _ ← advance
    return .yield (names.push (← expectName))
  else return .done names

/-- The names after the first of a dotted path. -/
def pathRest : Parser (List Ident) := do
  let names ← repeating #[] pathStep
  return names.toList

/-- A named type. -/
def namedType (inner : Rules) : Parser (Shape Node) := do
  let head ← expectName
  let path ← pathRest
  if (← check .lBracket) && !(← atArraySuffix) then
    let _ ← advance
    return .named head path (← list .rBracket inner.type)
  else return .named head path []

/-- What stands after `&`. -/
def pointee (inner : Rules) : Parser (Shape Node) := do
  let isConst ← eat .kwConst
  return .pointer isConst (← inner.type)

/-- A type without suffixes. -/
def baseType (inner : Rules) : Parser (Shape Node) := do
  let k ← kind
  if k.roles.primitive then
    let _ ← advance
    return .prim k
  else
    match k with
    | .name => namedType inner
    | .lParen =>
      let _ ← advance
      return .tupleType (← list .rParen inner.type)
    | .kwFunc =>
      let _ ← advance
      let _ ← expect .lParen
      let params ← list .rParen inner.type
      return .funcType params (← optionalAfter .arrow inner.type)
    | .amp =>
      let _ ← advance
      pointee inner
    | .ampAmp =>
      -- two pointers that the lexer read as one token
      let _ ← advance
      let start ← here
      return .pointer false (← close start (← pointee inner))
    | _ => unexpected .type

/-- A type. -/
def typeRule (inner : Rules) : Parser Node := do
  let start ← here
  let base ← baseType inner
  typeSuffixes inner start (← close start base)

end BraceLang.Grammar
