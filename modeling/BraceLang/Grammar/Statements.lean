import BraceLang.Grammar.Declarations

/-! The grammar of statements and blocks, and recovery from errors in them: a statement that cannot be
    read is reported and skipped up to the next place where one can start. -/

namespace BraceLang.Grammar

/-! ### Recovery -/

/-- One token on the way to the start of a statement, the end of the text or, in a block, the brace that
    closes it; `braces` is the number of braces opened on the way. -/
def boundaryStep (inBlock : Bool) (braces : Nat) : Parser (ForInStep Nat) := do
  let k ← kind
  match k, braces with
  | .eof, _ => return .done braces
  | .rBrace, 0 =>
    if inBlock then return .done 0
    else
      let _ ← advance
      return .yield 0
  | .rBrace, braces + 1 =>
    let _ ← advance
    return .yield braces
  | .lBrace, braces =>
    let _ ← advance
    return .yield (braces + 1)
  | k, braces =>
    if braces == 0 && k.roles.boundary then return .done braces
    else
      let _ ← advance
      return .yield braces

/-- Skips tokens up to the next place where a statement can start or the block ends. -/
def skipToBoundary (inBlock : Bool) : Parser Unit := do
  let _ ← repeating 0 (boundaryStep inBlock)

/-- Takes a token if no more than `mark` tokens were remaining. -/
def skipUnmoved (mark : Nat) : Parser Unit := do
  if (← get).remaining == mark && !(← check .eof) then
    let _ ← advance
    return ()
  else return ()

/-- Goes on after an error in a statement that began with `mark` tokens remaining. At least one token
    is skipped if the statement took none. -/
def synchronize (mark : Nat) (inBlock : Bool) : Parser Unit := do
  modify fun s => { s with pendingAsync := none }
  skipUnmoved mark
  skipToBoundary inBlock

/-- One more statement; one that cannot be read is reported and skipped. -/
def statementStep (statement : Parser Node) (inBlock : Bool) (items : Array Node) :
    Parser (ForInStep (Array Node)) := do
  if (← check .eof) || (inBlock && (← check .rBrace)) then return .done items
  else
    let mark := (← get).remaining
    match ← attempt statement with
    | .ok item => return .yield (items.push item)
    | .error e =>
      report e
      synchronize mark inBlock
      return .yield items

/-- Statements up to the end of the text or, in a block, up to the closing brace. -/
def statements (statement : Parser Node) (inBlock : Bool) : Parser (List Node) := do
  let items ← repeating #[] (statementStep statement inBlock)
  return items.toList

/-- Statements between braces. -/
def blockRule (inner : Rules) : Parser Node := do
  let start ← here
  let _ ← expect .lBrace
  let body ← withStructLiterals true (statements inner.statement true)
  let _ ← expect .rBrace
  close start (.block body)

/-! ### Statements -/

/-- Whether a kind starts a variable declaration. -/
def startsVariable : Kind → Bool
  | .kwVar | .kwConst => true
  | _ => false

/-- The condition of an `if` or `while`: an expression in which no struct literal starts, or a variable
    declaration, which may stand between parentheses. -/
def condition (inner : Rules) : Parser Node := do
  if startsVariable (← kind) then
    let start ← here
    withStructLiterals false (variableDecl inner [] Modifiers.none start true)
  else if (← check .lParen) && startsVariable (← peek 1) then
    let _ ← advance
    let start ← here
    let decl ← withStructLiterals true (variableDecl inner [] Modifiers.none start true)
    let _ ← expect .rParen
    return decl
  else withStructLiterals false inner.expression

/-- The branch after `else`, if there is one. -/
def elseBranch (inner : Rules) : Parser (Option Node) := do
  if ← eat .kwElse then
    if ← check .kwIf then return some (← inner.elseIf) else return some (← inner.block)
  else return none

/-- An `if` with the branches after it. -/
def ifRule (inner : Rules) : Parser Node := do
  let start ← here
  let _ ← expect .kwIf
  let cond ← condition inner
  let thenBranch ← inner.block
  close start (.ifElse cond thenBranch (← elseBranch inner))

/-- A `while` loop. -/
def whileRule (inner : Rules) : Parser Node := do
  let start ← here
  let _ ← advance
  let cond ← condition inner
  close start (.whileLoop cond (← inner.block))

/-- A part of the header of a `for` loop, which is absent if the token after it comes at once. -/
def headerPart (inner : Rules) (stop : Kind) : Parser (Option Node) := do
  let part ← optionalValue (· == stop) inner
  let _ ← expect stop
  return part

/-- The first part of the header of a `for` loop. -/
def headerInit (inner : Rules) : Parser (Option Node) := do
  if startsVariable (← kind) then
    let start ← here
    let decl ← variableDecl inner [] Modifiers.none start false
    let _ ← expect .semi
    return some decl
  else headerPart inner .semi

/-- A `for` loop with a header of three parts. -/
def forRule (inner : Rules) : Parser Node := do
  let start ← here
  let _ ← expect .kwFor
  let _ ← expect .lParen
  let init ← headerInit inner
  let cond ← headerPart inner .semi
  let step ← headerPart inner .rParen
  close start (.forLoop init cond step (← inner.block))

/-- An expression that stands as a statement. -/
def expressionStatement (inner : Rules) (start : Range) : Parser Node := do
  close start (.exprStmt (← inner.expression))

/-- Whether the `func` ahead starts a declaration. Before a parenthesis it starts a closure, unless the
    parentheses are empty and others follow: then it overloads the call. -/
def atFunctionDecl : Parser Bool := do
  match ← peek 1 with
  | .lParen => return (← peek 2) == .rParen && (← peek 3) == .lParen
  | _ => return true

/-- A statement that starts with `async func`. -/
def asyncStatement (inner : Rules) : Parser Node := do
  let start ← here
  let token ← advance
  modify fun s => { s with pendingAsync := some token.range }
  if ← atFunctionDecl then declarationAfter inner [] start
  else expressionStatement inner start

/-- Whether a `return` ahead of this token has no value. -/
def endsReturn : Kind → Bool
  | .semi | .rBrace | .eof => true
  | _ => false

/-- A statement without the semicolon after it. -/
def statementBody (inner : Rules) : Parser Node := do
  let start ← here
  match ← kind with
  | .atSign | .kwExport | .kwOpaque | .kwStruct | .kwEnum | .kwType | .kwVar | .kwConst =>
    declaration inner
  | .kwFunc => if ← atFunctionDecl then declaration inner else expressionStatement inner start
  | .kwAsync =>
    if (← peek 1) == .kwFunc then asyncStatement inner else expressionStatement inner start
  | .lBrace => inner.block
  | .kwIf => ifRule inner
  | .kwWhile => whileRule inner
  | .kwFor => forRule inner
  | .kwDefer =>
    let _ ← advance
    close start (.deferred (← inner.statement))
  | .kwReturn =>
    let _ ← advance
    close start (.returned (← optionalValue endsReturn inner))
  | .kwBreak =>
    let _ ← advance
    close start .broken
  | .kwContinue =>
    let _ ← advance
    close start .continued
  | _ => expressionStatement inner start

/-- A statement with the semicolon after it, if there is one. -/
def statementRule (inner : Rules) : Parser Node := do
  let statement ← statementBody inner
  let _ ← eat .semi
  return statement

end BraceLang.Grammar
