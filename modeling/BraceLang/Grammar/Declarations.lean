import BraceLang.Grammar.Expressions

/-! The grammar of declarations: variables, functions, structs, enums and type names, with the attributes
    and modifiers before them. -/

namespace BraceLang.Grammar

/-- One group of attributes `@[expr, …]` after the others. -/
def attributeStep (inner : Rules) (attrs : List Node) : Parser (ForInStep (List Node)) := do
  if ← eat .atSign then
    let _ ← expect .lBracket
    return .yield (attrs ++ (← list .rBracket inner.expression))
  else return .done attrs

/-- Groups of attributes, taken together. -/
def attributes (inner : Rules) : Parser (List Node) := repeating [] (attributeStep inner)

/-- One more type, and the bar after it. -/
def barStep (inner : Rules) (types : Array Node) : Parser (ForInStep (Array Node)) := do
  let types := types.push (← inner.type)
  if ← eat .pipe then return .yield types else return .done types

/-- The types that a generic parameter may stand for, with bars between them. -/
def constraints (inner : Rules) : Parser (List Node) := do
  if ← eat .colon then
    let types ← repeating #[] (barStep inner)
    return types.toList
  else return []

/-- A generic parameter. -/
def genericParameter (inner : Rules) : Parser Node := do
  let start ← here
  let name ← expectName
  close start (.generic name (← constraints inner))

/-- Generic parameters between brackets, or none. -/
def generics (inner : Rules) : Parser (List Node) := do
  if ← eat .lBracket then list .rBracket (genericParameter inner) else return []

/-! ### Variables -/

/-- One more name of a tuple, and the comma after it. -/
def patternStep (names : Array Ident) : Parser (ForInStep (Array Ident)) := do
  if ← check .rParen then return .done names
  else
    let names := names.push (← expectName)
    if ← eat .comma then return .yield names else return .done names

/-- The names of a declaration: one, or a list of them between parentheses that is not empty. -/
def pattern (start : Range) : Parser Pattern := do
  if ← eat .lParen then
    let names ← repeating #[] patternStep
    let _ ← expect .rParen
    match names.toList with
    | first :: others => return .tuple first others
    | [] => throw ⟨.noNames, ← finish start⟩
  else return .single (← expectName)

/-- The keyword of a variable or constant, and whether it is that of a constant. -/
def variableKeyword : Parser Bool := do
  if ← eat .kwConst then return true
  else
    let _ ← expect .kwVar
    return false

/-- A variable or constant. A constant needs a value, and a variable too if one is required. -/
def variableDecl (inner : Rules) (attrs : List Node) (modifiers : Modifiers) (start : Range)
    (required : Bool) : Parser Node := do
  let isConst ← variableKeyword
  let names ← pattern start
  let type ← optionalAfter .colon inner.type
  let init ← optionalAfter .eq inner.expression
  if init.isNone && (isConst || required) then unexpected (.token .eq)
  else close start (.var attrs modifiers isConst names type init)

/-! ### Functions -/

/-- The name of an overload that is spelled with brackets. -/
def indexOperator (stores : Bool) : String :=
  if stores then "operator_index_set" else "operator_index"

/-- The name of the overload of an operator that begins at `start`. -/
def overload (k : Kind) (start : Range) (name : String) : Parser (Ident × Option Kind) := do
  return (⟨name, ← finish start⟩, some k)

/-- The name after `func`, or the operator there with the name of its overload. -/
def functionName : Parser (Ident × Option Kind) := do
  let k ← kind
  let start ← here
  match k with
  | .name => return (← expectName, none)
  | .kwInit =>
    let _ ← advance
    overload k start "operator_init"
  | .lBracket =>
    let _ ← advance
    let _ ← expect .rBracket
    overload k start (indexOperator (← eat .eq))
  | .lParen =>
    let _ ← advance
    let _ ← expect .rParen
    overload k start "operator_call"
  | k =>
    match k.operatorName? with
    | some name =>
      let _ ← advance
      overload k start name
    | none => unexpected .functionName

/-- The name of a function once its parameters are known: with one parameter, `-`, `+`, `*` and `&`
    are overloaded as prefix operators. -/
def overloadName (name : Ident) (operator : Option Kind) (signature : Node) : Ident :=
  match operator, signature.shape with
  | some op, .signature [_] _ =>
    match op.unaryOperatorName? with
    | some unary => { name with text := unary }
    | none => name
  | _, _ => name

/-- The body of a function: a block, an expression after `=>`, or nothing before a semicolon, the end
    of the enclosing block or file, or the start of another statement. -/
def functionBody (inner : Rules) : Parser (Option Node) := do
  if ← check .lBrace then return some (← inner.block)
  else if ← eat .fatArrow then return some (← inner.expression)
  else if ← eat .semi then return none
  else
    match ← kind with
    | .eof | .rBrace => return none
    | k => if k.roles.boundary then return none else unexpected .functionBody

/-- Whether a function is asynchronous. -/
def functionAsync : Parser Bool := do
  match ← takePendingAsync with
  | some _ => return true
  | none => eat .kwAsync

/-- Generic parameters, which an overload of an operator does not have. -/
def functionGenerics (inner : Rules) (operator : Option Kind) : Parser (List Node) :=
  if operator.isNone then generics inner else return []

/-- A function declaration. -/
def functionDecl (inner : Rules) (attrs : List Node) (modifiers : Modifiers) (start : Range) :
    Parser Node := do
  let isAsync ← functionAsync
  let _ ← expect .kwFunc
  let (name, operator) ← functionName
  let params ← functionGenerics inner operator
  let signature ← callSignature inner
  let name := overloadName name operator signature
  let body ← functionBody inner
  close start (.func attrs modifiers isAsync name operator params signature body)

/-! ### Types -/

/-- An option of an enum. -/
def enumOption (inner : Rules) : Parser Node := do
  let start ← here
  let attrs ← attributes inner
  let name ← expectName
  close start (.enumOption attrs name (← optionalAfter .eq inner.expression))

/-- Reports that an enum has no options, if so. -/
def requireOptions (options : List Node) (range : Range) : Parser Unit :=
  if options.isEmpty then report ⟨.noOptions, range⟩ else return ()

/-- An enum. One without options is reported and kept. -/
def enumDecl (inner : Rules) (attrs : List Node) (modifiers : Modifiers) (start : Range) :
    Parser Node := do
  let _ ← expect .kwEnum
  let name ← expectName
  let base ← optionalAfter .colon inner.type
  let _ ← expect .lBrace
  let options ← list .rBrace (enumOption inner)
  let range ← finish start
  requireOptions options range
  node (.enum attrs modifiers name base options) range

/-- One more type of a union, after a bar. -/
def unionStep (inner : Rules) (members : Array Node) : Parser (ForInStep (Array Node)) := do
  if ← eat .pipe then return .yield (members.push (← inner.type)) else return .done members

/-- The types of a union that starts with `first`. -/
def unionMembers (inner : Rules) (first : Node) : Parser (List Node) := do
  let members ← repeating #[first] (unionStep inner)
  return members.toList

/-- A type alias `type Name = T`, or a union of several types. -/
def typeDecl (inner : Rules) (attrs : List Node) (modifiers : Modifiers) (start : Range) :
    Parser Node := do
  let _ ← expect .kwType
  let name ← expectName
  let params ← generics inner
  let _ ← expect .eq
  let first ← inner.type
  if ← check .pipe then
    close start (.union attrs modifiers name params (← unionMembers inner first))
  else close start (.typeAlias attrs modifiers name params first)

/-- A semicolon or comma. -/
def separatorStep (_ : Unit) : Parser (ForInStep Unit) := do
  if ← eat .semi then return .yield ()
  else if ← eat .comma then return .yield ()
  else return .done ()

/-- Semicolons and commas between members. -/
def skipSeparators : Parser Unit := repeating () separatorStep

/-- One more member of a struct, and the separators after it. -/
def structMemberStep (inner : Rules) (members : Array Node) : Parser (ForInStep (Array Node)) := do
  match ← kind with
  | .rBrace | .eof => return .done members
  | _ =>
    let members := members.push (← inner.structMember)
    skipSeparators
    return .yield members

/-- A struct. -/
def structDecl (inner : Rules) (attrs : List Node) (modifiers : Modifiers) (start : Range) :
    Parser Node := do
  let _ ← expect .kwStruct
  let name ← expectName
  let params ← generics inner
  let _ ← expect .lBrace
  let members ← withStructLiterals true (repeating #[] (structMemberStep inner))
  let _ ← expect .rBrace
  close start (.struct attrs modifiers name params members.toList)

/-! ### Any declaration -/

/-- One more marker. -/
def modifierStep (mods : Modifiers) : Parser (ForInStep Modifiers) := do
  match ← kind with
  | .kwExport =>
    let _ ← advance
    return .yield { mods with exported := true }
  | .kwOpaque =>
    let _ ← advance
    return .yield { mods with sealed := true }
  | _ => return .done mods

/-- The markers before a declaration, in any order and number. -/
def modifiers : Parser Modifiers := repeating Modifiers.none modifierStep

/-- A declaration whose attributes have been read. -/
def declarationAfter (inner : Rules) (attrs : List Node) (start : Range) : Parser Node := do
  let mods ← modifiers
  match ← kind with
  | .kwStruct => structDecl inner attrs mods start
  | .kwEnum => enumDecl inner attrs mods start
  | .kwType => typeDecl inner attrs mods start
  | .kwVar | .kwConst => variableDecl inner attrs mods start false
  | .kwFunc | .kwAsync => functionDecl inner attrs mods start
  | _ => unexpected .declaration

/-- A declaration. -/
def declaration (inner : Rules) : Parser Node := do
  let start ← here
  declarationAfter inner (← attributes inner) start

/-- A field of a struct whose attributes have been read. -/
def structField (inner : Rules) (attrs : List Node) (start : Range) : Parser Node := do
  let isPrivate ← eat .kwPrivate
  let name ← expectName
  let _ ← expect .colon
  let type ← inner.type
  close start (.field attrs isPrivate name type (← optionalAfter .eq inner.expression))

/-- A member of a struct: a field, or a declaration inside it. -/
def structMemberRule (inner : Rules) : Parser Node := do
  let start ← here
  let attrs ← attributes inner
  if (← check .kwPrivate) || ((← check .name) && (← peek 1) == .colon) then
    structField inner attrs start
  else declarationAfter inner attrs start

end BraceLang.Grammar
