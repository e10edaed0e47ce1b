import BraceLang.Diagnostic.Log
import BraceLang.Grammar.Error
import BraceLang.Node
import BraceLang.Token.Lexer

/-! Parsers: actions that take tokens, give out node identities and report, and that may fail. A failed
    parser keeps what it has taken and reported, so recovery can go on from there.

    A parser sees four tokens ahead, and what is wrong with the characters of a token is reported when
    the token comes into sight. -/

namespace BraceLang.Grammar

/-- Where a parser stands. -/
structure State where
  /-- The tokens not yet taken, nearest first, without the end. -/
  ahead : List Lexed
  /-- The end, which is never taken. -/
  eof : Lexed
  /-- The number of tokens not yet taken. -/
  remaining : Nat
  /-- The range of the token taken last. -/
  lastRange : Option Range
  /-- The identity of the next node. -/
  nextId : NodeId
  log : Log
  /-- Whether a name before a brace may start a struct literal. -/
  structLiterals : Bool
  /-- The number of nested constructs around this place. -/
  depth : Nat
  /-- The range of an `async` that was taken before it was known what it belongs to. -/
  pendingAsync : Option Range
  remaining_eq : remaining = ahead.length
  ahead_kind : ∀ lexed ∈ ahead, lexed.token.kind ≠ .eof
  eof_kind : eof.token.kind = .eof

/-- The number of tokens in sight. -/
def lookahead : Nat := 4

/-- What is wrong with the characters of a token. -/
def lexicalReports (lexed : Lexed) : List Diagnostic := lexed.errors.map LexError.toDiagnostic

/-- The token `n` places ahead, the end being the last. -/
def upcoming? (eof : Lexed) : List Lexed → Nat → Option Lexed
  | [], 0 => some eof
  | [], _ + 1 => none
  | lexed :: _, 0 => some lexed
  | _ :: rest, n + 1 => upcoming? eof rest n

namespace State

/-- The start of a stream of tokens. -/
def start (stream : TokenStream) : State :=
  let sight := (List.range lookahead).filterMap (upcoming? stream.eof stream.tokens)
  { ahead := stream.tokens
    eof := stream.eof
    remaining := stream.tokens.length
    lastRange := none
    nextId := 0
    log := Log.empty.append (sight.flatMap lexicalReports)
    structLiterals := true
    depth := 0
    pendingAsync := none
    remaining_eq := rfl
    ahead_kind := stream.tokens_kind
    eof_kind := stream.eof_kind }

/-- The nearest token. -/
def current (s : State) : Token :=
  match s.ahead with
  | lexed :: _ => lexed.token
  | [] => s.eof.token

/-- The kind of the nearest token. -/
def kind (s : State) : Kind := s.current.kind

/-- The kind of the token `n` places ahead. -/
def peek (s : State) (n : Nat) : Kind :=
  match s.ahead[n]? with
  | some lexed => lexed.token.kind
  | none => .eof

/-- The place after the nearest token. The end stays where it is. -/
def advance (s : State) : State :=
  let reports := (upcoming? s.eof s.ahead lookahead).toList.flatMap lexicalReports
  { s with
    ahead := s.ahead.tail
    remaining := s.remaining - 1
    lastRange := some s.current.range
    log := s.log.append reports
    remaining_eq := by rw [s.remaining_eq, List.length_tail]
    ahead_kind := fun lexed h => s.ahead_kind lexed (List.mem_of_mem_tail h) }

end State

/-- An action on the tokens ahead. -/
abbrev Parser := EStateM ParseError State

/-! ### Taking tokens -/

/-- The kind of the nearest token. -/
def kind : Parser Kind := return (← get).kind

/-- The kind of the token `n` places ahead. -/
def peek (n : Nat) : Parser Kind := return (← get).peek n

/-- The range of the nearest token. -/
def here : Parser Range := return (← get).current.range

/-- Takes the nearest token. -/
def advance : Parser Token := do
  let s ← get
  set s.advance
  return s.current

/-- Whether the nearest token is of the given kind. -/
def check (k : Kind) : Parser Bool := return (← kind) == k

/-- Takes the nearest token if it is of the given kind, and says whether it was. -/
def eat (k : Kind) : Parser Bool := do
  if ← check k then
    let _ ← advance
    return true
  else return false

/-- Fails because the nearest token is not what was expected. -/
def unexpected {α : Type} (expected : Expectation) : Parser α := do
  let s ← get
  throw ⟨.expected expected s.kind, s.current.range⟩

/-- Takes a token of the given kind. -/
def expect (k : Kind) : Parser Token := do
  if ← check k then advance else unexpected (.token k)

/-- Takes a name. -/
def expectName : Parser Ident := do
  if ← check .name then
    let token ← advance
    return ⟨token.text, token.range⟩
  else unexpected .name

/-! ### Building nodes -/

/-- From `start` through the token taken last. -/
def finish (start : Range) : Parser Range := do
  match (← get).lastRange with
  | some last =>
    return if start.source = last.source ∧ start.start.pos ≤ last.start.pos then start.merge last
      else start
  | none => return start

/-- A new node with the next identity. -/
def node (shape : Shape Node) (range : Range) : Parser Node :=
  modifyGet fun s => (⟨s.nextId, range, none, shape⟩, { s with nextId := s.nextId + 1 })

/-- A new node from `start` through the token taken last. -/
def close (start : Range) (shape : Shape Node) : Parser Node := do
  node shape (← finish start)

/-- Reports an error and goes on. -/
def report (e : ParseError) : Parser Unit :=
  modify fun s => { s with log := s.log.push e.toDiagnostic }

/-! ### Combining parsers -/

/-- The outcome of a parser, failed or not, with all it has taken and reported. -/
def attempt {α : Type} (body : Parser α) : Parser (Except ParseError α) := fun s =>
  match body s with
  | .ok a t => .ok (.ok a) t
  | .error e t => .ok (.error e) t

/-- Runs `body` with struct literals allowed or not. -/
def withStructLiterals {α : Type} (allowed : Bool) (body : Parser α) : Parser α := fun s =>
  match body { s with structLiterals := allowed } with
  | .ok a t => .ok a { t with structLiterals := s.structLiterals }
  | .error e t => .error e { t with structLiterals := s.structLiterals }

/-- Runs `body` one level deeper. -/
def nested {α : Type} (body : Parser α) : Parser α := fun s =>
  match body { s with depth := s.depth + 1 } with
  | .ok a t => .ok a { t with depth := t.depth - 1 }
  | .error e t => .error e { t with depth := t.depth - 1 }

/-- Fails because no deeper level is allowed. -/
def tooDeep {α : Type} : Parser α := do
  let s ← get
  throw ⟨.tooDeeplyNested s.depth, s.current.range⟩

/-- The outcome of `repeating` at a place. -/
def repeatFrom {α : Type} (step : α → Parser (ForInStep α)) (a : α) (s : State) :
    EStateM.Result ParseError State α :=
  match step a s with
  | .ok (.done b) t => .ok b t
  | .ok (.yield b) t => if t.remaining < s.remaining then repeatFrom step b t else .ok b t
  | .error e t => .error e t
termination_by s.remaining

/-- Repeats `step`, each time from what it gave before, until it is done. A step that takes no token
    is the last. -/
def repeating {α : Type} (a : α) (step : α → Parser (ForInStep α)) : Parser α := repeatFrom step a

/-- One more item of a list, and the comma after it. -/
def listStep (closing : Kind) (item : Parser Node) (items : Array Node) :
    Parser (ForInStep (Array Node)) := do
  if ← check closing then return .done items
  else
    let items := items.push (← item)
    if ← eat .comma then return .yield items else return .done items

/-- Items with commas between them up to `closing`; a comma may stand after the last. -/
def list (closing : Kind) (item : Parser Node) : Parser (List Node) :=
  withStructLiterals true do
    let items ← repeating #[] (listStep closing item)
    let _ ← expect closing
    return items.toList

/-- An item that stands after the given token, if that token is there. -/
def optionalAfter (k : Kind) (item : Parser Node) : Parser (Option Node) := do
  if ← eat k then return some (← item) else return none

/-- The constructs that may stand one level deeper than the one being read. -/
structure Rules where
  expression : Parser Node
  type : Parser Node
  statement : Parser Node
  block : Parser Node
  structMember : Parser Node
  /-- The right operand of an operator with the given precedence. -/
  operand (limit : Nat) : Parser Node
  /-- What stands after a prefix operator. -/
  unary : Parser Node
  /-- The `if` after an `else`. -/
  elseIf : Parser Node

end BraceLang.Grammar
