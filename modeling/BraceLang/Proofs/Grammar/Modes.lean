import BraceLang.Proofs.Grammar.Spans.Statements

/-! The modes of a parser: how many constructs are open, whether struct literals may start, and the `async` that
    waits for the function it belongs to. The first two are what they were when a construct has been read, failed
    or not. An `async` waits only while its `func` is the nearest token (`State.Tidy`), and none does where a
    statement starts (`State.Clean`).

    In which modes the rules are entered is said by rules that do anything else in all others
    (`Rules.confined`): a source is read by them as it is by the rules of the language.

    Main statement: `parsing_restores_modes`. -/

namespace BraceLang.Grammar

variable {α β : Type} {tokens : List Lexed} {free : Bool} {I J E : State → Prop} {r q : Rules} {s t : State}

/-! ### Modes -/

namespace State

instance : DecidablePred Idle := fun s => inferInstanceAs (Decidable (s.pendingAsync = none))

/-- The modes that a statement starts in. -/
structure Clean (s : State) : Prop where
  structLiterals : s.structLiterals = true
  idle : s.Idle

instance : DecidablePred Clean := fun s =>
  decidable_of_iff (s.structLiterals = true ∧ s.Idle) ⟨fun h => ⟨h.1, h.2⟩, fun h => ⟨h.1, h.2⟩⟩

/-- The token taken last, all tokens being the given ones. -/
def last? (tokens : List Lexed) (s : State) : Option Lexed :=
  (tokens.take (tokens.length - s.remaining)).getLast?

/-- If an `async` waits, it is the token taken last, and the `func` of the function it belongs to is the nearest. -/
def Tidy (tokens : List Lexed) (s : State) : Prop :=
  ∀ range ∈ s.pendingAsync, s.kind = .kwFunc ∧
    ∃ lexed ∈ s.last? tokens, lexed.token.kind = .kwAsync ∧ lexed.token.range = range

instance (tokens : List Lexed) : DecidablePred (Tidy tokens) := fun s =>
  inferInstanceAs (Decidable (∀ range ∈ s.pendingAsync, s.kind = .kwFunc ∧
    ∃ lexed ∈ s.last? tokens, lexed.token.kind = .kwAsync ∧ lexed.token.range = range))

theorem Idle.tidy (h : s.Idle) : s.Tidy tokens := by
  intro range hrange
  rw [show s.pendingAsync = none from h] at hrange
  cases hrange

theorem last?_of_append {before : List Lexed} {lexed : Lexed} (h : tokens = before ++ lexed :: s.ahead) :
    s.last? tokens = some lexed := by
  have htaken : tokens.length - s.remaining = before.length + 1 := by
    rw [h, s.remaining_eq, List.length_append, List.length_cons]
    omega
  rw [last?, htaken, h, List.append_cons, List.take_left' (by simp), List.getLast?_concat]

end State

/-- A place in a stream with the given tokens and in the given mode. If `free`, struct literals may start there. -/
structure Along (tokens : List Lexed) (free : Bool) (mode : State → Prop) (s : State) : Prop where
  ahead : s.ahead <:+ tokens
  free : free = true → s.structLiterals = true
  mode : mode s

namespace Along

theorem moves (h : Along tokens free I s) (hmoves : Moves s t) (ht : J t) : Along tokens free J t where
  ahead := hmoves.ahead.trans h.ahead
  free hfree := hmoves.structLiterals.trans (h.free hfree)
  mode := ht

theorem mono (h : Along tokens free I s) (hI : I s → J s) : Along tokens free J s := ⟨h.ahead, h.free, hI h.mode⟩

theorem deepen (h : Along tokens free State.Idle s) (depth : Nat) : Along tokens free State.Idle { s with depth } :=
  ⟨h.ahead, h.free, h.mode⟩

theorem deepen_tidy (h : Along tokens free (State.Tidy tokens) s) (depth : Nat) :
    Along tokens free (State.Tidy tokens) { s with depth } := ⟨h.ahead, h.free, h.mode⟩

end Along

/-! ### Runs from one mode to another -/

/-- Wherever the first mode is given, the parsers do the same, and no `async` waits where they stop or, failed, the
    second mode is given there. -/
abbrev Calms (tokens : List Lexed) (free : Bool) (I E : State → Prop) (p q : Parser α) : Prop :=
  Carries (Along tokens free I) (Along tokens free State.Idle) (Along tokens free E) p q

namespace Carries
variable {p q : Parser α}

theorem of_plain (h : Plain p) : Calms tokens free State.Idle State.Idle p p :=
  h.carries fun _ _ hs hmoves hidle => hs.moves hmoves (hidle hs.mode)

theorem here : Carries I I E here here := fun s hs => ⟨rfl, .refl s, hs⟩

theorem kind {f g : Kind → Parser α} (h : ∀ k, Carries (fun s => I s ∧ s.kind = k) J E (f k) (g k)) :
    Carries I J E (kind >>= f) (kind >>= g) := fun s hs => h s.kind s ⟨hs, rfl⟩

theorem peek {n : Nat} {f g : Kind → Parser α}
    (h : ∀ k, Carries (fun s => I s ∧ s.peek n = k) J E (f k) (g k)) :
    Carries I J E (peek n >>= f) (peek n >>= g) := fun s hs => h (s.peek n) s ⟨hs, rfl⟩

theorem drop {P : State → Prop} (h : Carries I J E p q) : Carries (fun s => I s ∧ P s) J E p q :=
  fun s hs => h s hs.1

/-- Whatever waits when a statement could not be read is let go of before the next one starts. -/
theorem statementStep {p q : Parser Node} (inBlock : Bool) (items : Array Node)
    (h : Calms tokens true State.Idle E p q) :
    Calms tokens true State.Idle State.Idle (statementStep p inBlock items) (statementStep q inBlock items) := by
  intro s hs
  simp only [Grammar.statementStep, check_bind]
  split
  · exact ⟨rfl, .refl s, hs⟩
  rw [get_bind, get_bind]
  obtain ⟨heq, hmoves, hends⟩ := h s hs
  cases hrun : p s with
  | ok item t =>
    rw [hrun] at heq hmoves hends
    rw [bind_of_ok (show attempt p s = .ok (.ok item) t by rw [attempt, hrun]),
      bind_of_ok (show attempt q s = .ok (.ok item) t by rw [attempt, heq])]
    exact ⟨rfl, hmoves, hends⟩
  | error e t =>
    rw [hrun] at heq hmoves
    rw [bind_of_ok (show attempt p s = .ok (.error e) t by rw [attempt, hrun]),
      bind_of_ok (show attempt q s = .ok (.error e) t by rw [attempt, heq])]
    have hreported : Moves s { t with log := t.log.push e.toDiagnostic, pendingAsync := none } :=
      (hmoves.trans (.report t e)).trans (.setPendingAsync _ none)
    have hskips : Plain ((do skipUnmoved s.remaining; skipToBoundary inBlock) >>= fun _ =>
        return ForInStep.yield items) :=
      .bind (.skip s.remaining inBlock) fun _ => .pure
    obtain ⟨-, hskipped, hends⟩ := of_plain hskips _ (hs.moves hreported rfl)
    exact ⟨rfl, hreported.trans hskipped, hends⟩

end Carries

/-- What is read where no `async` waits leaves none waiting. A statement that fails may leave one. -/
def modes (tokens : List Lexed) : Discipline where
  Rel free := Calms tokens free State.Idle State.Idle
  Start := Calms tokens true State.Idle (State.Tidy tokens)
  same := .of_plain
  bind := .bind
  withStructLiterals _ h := h.withStructLiterals (fun _ hs => ⟨hs.ahead, id, hs.mode⟩)
    fun _ _ hs ht hmoves => hs.moves hmoves ht.mode
  repeating _ := .repeating
  statementStep := .statementStep

/-! ### Functions -/

theorem Carries.of_rel {p q : Parser α} (h : (modes tokens).Rel free p q) :
    Calms tokens free State.Idle State.Idle p q := h

theorem takePendingAsync_calms : Calms tokens free I E takePendingAsync takePendingAsync :=
  fun s hs => ⟨rfl, .setPendingAsync s none, hs.moves (.setPendingAsync s none) rfl⟩

/-- A closure takes the `async` that waits before it takes any token. -/
theorem closure_calms (h : r.Governed (modes tokens) q) : Calms tokens free I State.Idle (closure r) (closure q) := by
  have hstart : Calms tokens free I State.Idle closureStart closureStart := by
    refine .bind takePendingAsync_calms fun pending => .of_plain ?_
    split
    · exact .pure
    · exact .bind .here fun _ => .bind .eat fun _ => .pure
  exact .bind hstart fun _ => .of_rel <| .bind .expect fun _ => .bind (.callSignature h) fun _ =>
    .bind (.closureBody h) fun _ => .close

/-- A function takes the `async` that waits before it takes any token. -/
theorem functionDecl_calms (h : r.Governed (modes tokens) q) (attrs : List Node) (mods : Modifiers) (start : Range) :
    Calms tokens free I State.Idle (functionDecl r attrs mods start) (functionDecl q attrs mods start) := by
  have hasync : Calms tokens free I State.Idle functionAsync functionAsync := by
    refine .bind takePendingAsync_calms fun pending => .of_plain ?_
    split
    · exact .pure
    · exact .eat
  exact .bind hasync fun _ => .of_rel <| .bind .expect fun _ => .bind (.same .functionName) fun _ =>
    .bind (.ite (.generics h) .pure) fun _ => .bind (.callSignature h) fun _ => .bind (.functionBody h) fun _ =>
      .close

theorem declarationAfter_calms (h : r.Governed (modes tokens) q) (attrs : List Node) (start : Range) :
    Calms tokens free (·.kind = .kwFunc) State.Idle (declarationAfter r attrs start)
      (declarationAfter q attrs start) := by
  intro s hs
  rw [declarationAfter_of_func hs.mode, declarationAfter_of_func hs.mode]
  exact functionDecl_calms h attrs Modifiers.none start s hs

/-! ### Expressions that start with a function

Before the closure is read, nothing looks at more than the nearest token. -/

section
variable (h : r.Governed (modes tokens) q)
include h

theorem primary_calms : Calms tokens free (·.kind = .kwFunc) State.Idle (primary r) (primary q) := by
  intro s hs
  rw [primary_of_func hs.mode, primary_of_func hs.mode]
  exact closure_calms h s hs

theorem prefixed_calms : Calms tokens free (·.kind = .kwFunc) State.Idle (prefixed r) (prefixed q) := by
  refine .kind fun k s hs => ?_
  obtain rfl := hs.1.mode.symm.trans hs.2
  have hsuffixed : Calms tokens free (·.kind = .kwFunc) State.Idle (suffixed r) (suffixed q) :=
    .bind .here fun _ => .bind (primary_calms h) fun _ => .of_rel (.repeating (.suffixStep h _))
  exact hsuffixed s hs.1

theorem assignment_calms : Calms tokens free (·.kind = .kwFunc) State.Idle (assignment r) (assignment q) := by
  have hbinary (limit : Nat) : Calms tokens free (·.kind = .kwFunc) State.Idle (binary r limit) (binary q limit) :=
    .bind .here fun _ => .bind (prefixed_calms h) fun _ => .of_rel (.repeating (.binaryStep h limit _))
  exact .bind .here fun _ => .bind (hbinary _) fun _ => .of_rel <| .bind .kind fun _ => .ite
    (.bind .advance fun _ => .bind h.expression fun _ => .close) .pure

theorem expressionRule_calms :
    Calms tokens free (·.kind = .kwFunc) State.Idle (expressionRule r) (expressionRule q) :=
  .bind .here fun _ => .bind (assignment_calms h) fun _ => .of_rel <| .bind .kind fun _ => .ite
    (.bind .advance fun _ => .bind (.middleBranch h) fun _ => .bind h.expression fun _ => .close) .pure

end

/-! ### Statements -/

theorem Carries.relax {p q : Parser α} (h : Calms tokens free I State.Idle p q) :
    Calms tokens free I (State.Tidy tokens) p q :=
  h.mono (fun _ => id) (fun _ => id) fun _ ht => ht.mono State.Idle.tidy

theorem Carries.calmly {p q : Parser α} (h : (modes tokens).Rel free p q) :
    Calms tokens free State.Idle (State.Tidy tokens) p q := relax h

theorem Carries.weaken {p q : Parser α} (h : Calms tokens free I E p q) (hI : ∀ s, J s → I s) :
    Calms tokens free J E p q :=
  h.mono (fun s hs => hs.mono (hI s)) (fun _ => id) fun _ => id

theorem Along.pending (h : Along tokens free State.Idle s) (hasync : s.kind = .kwAsync) (hfunc : s.peek 1 = .kwFunc) :
    Along tokens free (fun t => t.kind = .kwFunc ∧ t.Tidy tokens) s.pending := by
  have hkind : s.pending.kind = .kwFunc := s.kind_advance.trans hfunc
  obtain ⟨lexed, rest, hahead, hcurrent⟩ := State.ahead_of_kind_ne (s := s) (hasync ▸ Kind.noConfusion)
  obtain ⟨before, htokens⟩ := h.ahead
  refine ⟨(List.tail_suffix s.ahead).trans h.ahead, h.free, hkind, ?_⟩
  rintro _ ⟨⟩
  have hrest : s.pending.ahead = rest := congrArg List.tail hahead
  have hsplit : tokens = before ++ lexed :: s.pending.ahead := by rw [hrest, ← hahead, htokens]
  refine ⟨hkind, lexed, State.last?_of_append hsplit, ?_, ?_⟩
  · rw [← hasync, State.kind, hcurrent]
  · rw [hcurrent]

theorem atFunctionDecl_looks : Carries I I E atFunctionDecl atFunctionDecl := by
  have hlook (n : Nat) : Carries I I E (Grammar.peek n) (Grammar.peek n) := fun s hs => ⟨rfl, .refl s, hs⟩
  refine .bind (hlook 1) fun k => ?_
  split
  · exact .bind (hlook 2) fun _ => .bind (hlook 3) fun _ => .pure
  · exact .pure

section
variable (h : r.Governed (modes tokens) q)
  (hexpression : Calms tokens true (State.Tidy tokens) (State.Tidy tokens) r.expression q.expression)
include h hexpression

theorem asyncStatement_tends (hs : Along tokens true State.Idle s) (hasync : s.kind = .kwAsync)
    (hfunc : s.peek 1 = .kwFunc) :
    asyncStatement q s = asyncStatement r s ∧ Moves s (Outcome.stop (asyncStatement r s)) ∧
      Outcome.Ends (Along tokens true State.Idle) (Along tokens true (State.Tidy tokens)) (asyncStatement r s) := by
  have hrest : Calms tokens true (fun t => t.kind = .kwFunc ∧ t.Tidy tokens) (State.Tidy tokens)
      (atFunctionDecl >>= fun b => if b = true then declarationAfter r [] s.current.range
        else expressionStatement r s.current.range)
      (atFunctionDecl >>= fun b => if b = true then declarationAfter q [] s.current.range
        else expressionStatement q s.current.range) := by
    refine .bind atFunctionDecl_looks fun _ => .ite ?_ (.bind ?_ fun _ => .calmly .close)
    · exact (declarationAfter_calms h [] _).relax.weaken fun _ => And.left
    · exact hexpression.weaken fun _ => And.right
  obtain ⟨heq, hmoves, hends⟩ := hrest s.pending (hs.pending hasync hfunc)
  exact ⟨heq, ((Moves.advance s).trans (.setPendingAsync _ _)).trans hmoves, hends⟩

theorem statementBody_tends : (modes tokens).Start (statementBody r) (statementBody q) := by
  refine .bind .here fun start => .kind fun k => ?_
  split
  case h_9 =>
    exact .drop <| .calmly <| .bind (.same .atFunctionDecl) fun _ =>
      .ite (.declaration h) (.expressionStatement h start)
  case h_10 =>
    refine .peek fun k s hs => ?_
    obtain ⟨⟨hs, hasync⟩, hfunc⟩ := hs
    split
    · exact asyncStatement_tends h hexpression hs hasync (hfunc.trans (beq_iff_eq.mp ‹_›))
    · exact Carries.calmly (.expressionStatement h start) s hs
  case h_11 => exact .drop <| .calmly h.block
  case h_12 => exact .drop <| .calmly (.ifRule h)
  case h_13 => exact .drop <| .calmly (.whileRule h)
  case h_14 => exact .drop <| .calmly (.forRule h)
  case h_15 => exact .drop <| .bind (.calmly .advance) fun _ => .bind h.statement fun _ => .calmly .close
  case h_16 =>
    exact .drop <| .calmly <| .bind .advance fun _ => .bind (.optionalValue _ h) fun _ => .close
  case h_17 | h_18 => exact .drop <| .calmly <| .bind .advance fun _ => .close
  case h_19 => exact .drop <| .calmly (.expressionStatement h start)
  all_goals exact .drop <| .calmly (.declaration h)

theorem statementRule_tends : (modes tokens).Start (statementRule r) (statementRule q) :=
  .bind (statementBody_tends h hexpression) fun _ => .calmly <| .bind .eat fun _ => .pure

end

/-! ### The rules in their modes -/

/-- Does as `p` does in the given mode, and as `other` does in all others. -/
def onlyIn (mode : State → Prop) [DecidablePred mode] (p other : Parser Node) : Parser Node := fun s =>
  if mode s then p s else other s

/-- The rules, each in the mode that it is entered in; whatever `other` says is done in all other modes. -/
def Rules.confine (r : Rules) (tokens : List Lexed) (other : Rules) : Rules where
  expression := onlyIn (State.Tidy tokens) r.expression other.expression
  type := onlyIn State.Idle r.type other.type
  statement := onlyIn State.Clean r.statement other.statement
  block := onlyIn State.Idle r.block other.block
  structMember := onlyIn State.Idle r.structMember other.structMember
  operand limit := onlyIn State.Idle (r.operand limit) (other.operand limit)
  unary := onlyIn State.Idle r.unary other.unary
  elseIf := onlyIn State.Idle r.elseIf other.elseIf

/-- The rules one level further out. -/
def Rules.outer (inner : Rules) : Rules where
  expression := nested (expressionRule inner)
  type := nested (typeRule inner)
  statement := nested (statementRule inner)
  block := nested (blockRule inner)
  structMember := nested (structMemberRule inner)
  operand limit := nested (binary inner limit)
  unary := nested (prefixed inner)
  elseIf := nested (ifRule inner)

/-- The rules with `n` levels of nesting left, confined to their modes at every level. -/
def Rules.confined (tokens : List Lexed) (other : Rules) : Nat → Rules
  | 0 => (within 0).confine tokens other
  | n + 1 => (confined tokens other n).outer.confine tokens other

/-- The rules do the same in the modes that they are entered in. -/
structure Rules.Modal (tokens : List Lexed) (r q : Rules) : Prop where
  governed : r.Governed (modes tokens) q
  expression {free : Bool} : Calms tokens free (State.Tidy tokens) (State.Tidy tokens) r.expression q.expression

theorem Carries.onlyIn {p q other : Parser Node} {mode : State → Prop} [DecidablePred mode] (h : Carries I J E p q)
    (hmode : ∀ s, I s → mode s) : Carries I J E p (onlyIn mode q other) := by
  intro s hs
  rw [Grammar.onlyIn, if_pos (hmode s hs)]
  exact h s hs

/-- Where the nesting is refused, an `async` goes on waiting. -/
theorem expressionRule_tends (h : r.Governed (modes tokens) q) :
    Calms tokens free (State.Tidy tokens) (State.Tidy tokens) (expressionRule r) (expressionRule q) := by
  intro s hs
  by_cases hidle : s.Idle
  · exact Carries.calmly (.expressionRule h) s (hs.mono fun _ => hidle)
  · obtain ⟨range, hrange⟩ := Option.ne_none_iff_exists'.mp hidle
    exact (expressionRule_calms h).relax s (hs.mono fun htidy => (htidy range hrange).1)

namespace Rules.Modal

theorem outer (h : r.Modal tokens q) : r.outer.Modal tokens q.outer := by
  have nests {α : Type} {p p' : Parser α} {free : Bool} (hp : (modes tokens).Rel free p p') :
      (modes tokens).Rel free (nested p) (nested p') :=
    Carries.nested hp (fun _ hs => hs.deepen _) (fun _ ht => ht.deepen _) fun _ ht => ht.deepen _
  have hstatement : (modes tokens).Start (nested (statementRule r)) (nested (statementRule q)) :=
    (statementRule_tends h.governed h.expression).nested (fun _ hs => hs.deepen _) (fun _ ht => ht.deepen _)
      fun _ ht => ht.deepen_tidy _
  have hexpression {free : Bool} : Calms tokens free (State.Tidy tokens) (State.Tidy tokens)
      (nested (expressionRule r)) (nested (expressionRule q)) :=
    (expressionRule_tends h.governed).nested (fun _ hs => hs.deepen_tidy _) (fun _ ht => ht.deepen _)
      fun _ ht => ht.deepen_tidy _
  exact ⟨{
    expression := nests (.expressionRule h.governed)
    type := nests (.typeRule h.governed)
    statement := hstatement
    block := nests (.blockRule h.governed)
    structMember := nests (.structMemberRule h.governed)
    operand := fun limit => nests (.binary h.governed limit)
    unary := nests (.prefixed h.governed)
    elseIf := nests (.ifRule h.governed) }, hexpression⟩

theorem confine (h : r.Modal tokens q) (other : Rules) : r.Modal tokens (q.confine tokens other) := by
  have inIdle {p p' other : Parser Node} {free : Bool} (hp : (modes tokens).Rel free p p') :
      (modes tokens).Rel free p (onlyIn State.Idle p' other) := Carries.onlyIn hp fun _ => Along.mode
  exact ⟨{
    expression := Carries.onlyIn h.governed.expression fun _ hs => hs.mode.tidy
    type := inIdle h.governed.type
    statement := Carries.onlyIn h.governed.statement fun _ hs => ⟨hs.free rfl, hs.mode⟩
    block := inIdle h.governed.block
    structMember := inIdle h.governed.structMember
    operand := fun limit => inIdle (h.governed.operand limit)
    unary := inIdle h.governed.unary
    elseIf := inIdle h.governed.elseIf }, h.expression.onlyIn fun _ => Along.mode⟩

theorem within_zero : (within 0).Modal tokens (within 0) :=
  ⟨{ expression := .same .tooDeep
     type := .same .tooDeep
     statement := .calmly (.same .tooDeep)
     block := .same .tooDeep
     structMember := .same .tooDeep
     operand := fun _ => .same .tooDeep
     unary := .same .tooDeep
     elseIf := .same .tooDeep }, fun s hs => ⟨rfl, .refl s, hs⟩⟩

theorem within (n : Nat) : (within n).Modal tokens (within n) := by
  induction n with
  | zero => exact within_zero
  | succ n ih => exact ih.outer

theorem confined (other : Rules) (n : Nat) : (Rules.within n).Modal tokens (Rules.confined tokens other n) := by
  induction n with
  | zero => exact within_zero.confine other
  | succ n ih => exact ih.outer.confine other

end Rules.Modal

/-! ### All that reads -/

/-- The items that stand in lists. -/
def Rules.items (r : Rules) : List (Parser Node) :=
  [r.type, r.expression, parameter r, fieldInit r, genericParameter r, enumOption r]

/-- `P` holds of all that reads a type, an expression, a declaration, a block or a part of a statement. -/
structure Rules.Constructs (r : Rules) (P : ∀ {α : Type}, Parser α → Prop) : Prop where
  list (closing : Kind) : ∀ item ∈ r.items, P (list closing item)
  type : P r.type
  typeRule : P (typeRule r)
  typeSuffixes (start : Range) (type : Node) : P (typeSuffixes r start type)
  callSignature : P (callSignature r)
  parameter : P (parameter r)
  closure : P (closure r)
  template : P (template r)
  parenthesized : P (parenthesized r)
  nameOrStructLiteral : P (nameOrStructLiteral r)
  primary : P (primary r)
  memberName : P memberName
  suffixed : P (suffixed r)
  unary : P r.unary
  prefixed : P (prefixed r)
  operand (limit : Nat) : P (r.operand limit)
  binary (limit : Nat) : P (binary r limit)
  assignment : P (assignment r)
  expression : P r.expression
  expressionRule : P (expressionRule r)
  attributes : P (attributes r)
  generics : P (generics r)
  variableDecl (attrs : List Node) (mods : Modifiers) (start : Range) (required : Bool) :
    P (variableDecl r attrs mods start required)
  functionName : P functionName
  functionDecl (attrs : List Node) (mods : Modifiers) (start : Range) : P (functionDecl r attrs mods start)
  enumDecl (attrs : List Node) (mods : Modifiers) (start : Range) : P (enumDecl r attrs mods start)
  typeDecl (attrs : List Node) (mods : Modifiers) (start : Range) : P (typeDecl r attrs mods start)
  structDecl (attrs : List Node) (mods : Modifiers) (start : Range) : P (structDecl r attrs mods start)
  declarationAfter (attrs : List Node) (start : Range) : P (declarationAfter r attrs start)
  declaration : P (declaration r)
  structMember : P r.structMember
  structMemberRule : P (structMemberRule r)
  block : P r.block
  blockRule : P (blockRule r)
  condition : P (condition r)
  elseIf : P r.elseIf
  ifRule : P (ifRule r)
  whileRule : P (whileRule r)
  forRule : P (forRule r)
  expressionStatement (start : Range) : P (expressionStatement r start)

/-- `P` holds of all that reads statements. -/
structure Rules.Statements (r : Rules) (P : ∀ {α : Type}, Parser α → Prop) : Prop where
  statement : P r.statement
  statementRule : P (statementRule r)
  statementBody : P (statementBody r)
  statements (inBlock : Bool) : P (statements r.statement inBlock)

/-- A discipline that governs the rules governs all constructs. -/
theorem Rules.Governed.constructs {D : Discipline} {P : ∀ {α : Type}, Parser α → Prop} (h : r.Governed D r)
    (hP : ∀ {α : Type} {p : Parser α}, D.Rel false p p → P p) : r.Constructs P where
  list closing := by
    simp only [Rules.items, List.forall_mem_cons]
    exact ⟨hP (.list h.type), hP (.list h.expression), hP (.list (.parameter h)), hP (.list (.fieldInit h)),
      hP (.list (.genericParameter h)), hP (.list (.enumOption h)), List.forall_mem_nil _⟩
  type := hP h.type
  typeRule := hP (.typeRule h)
  typeSuffixes start _ := hP (.repeating (.typeSuffixStep h start))
  callSignature := hP (.callSignature h)
  parameter := hP (.parameter h)
  closure := hP (.closure h)
  template := hP (.template h)
  parenthesized := hP (.parenthesized h)
  nameOrStructLiteral := hP (.nameOrStructLiteral h)
  primary := hP (.primary h)
  memberName := hP (.same .memberName)
  suffixed := hP (.suffixed h)
  unary := hP h.unary
  prefixed := hP (.prefixed h)
  operand limit := hP (h.operand limit)
  binary limit := hP (.binary h limit)
  assignment := hP (.assignment h)
  expression := hP h.expression
  expressionRule := hP (.expressionRule h)
  attributes := hP (.attributes h)
  generics := hP (.generics h)
  variableDecl attrs mods start required := hP (.variableDecl h attrs mods start required)
  functionName := hP (.same .functionName)
  functionDecl attrs mods start := hP (.functionDecl h attrs mods start)
  enumDecl attrs mods start := hP (.enumDecl h attrs mods start)
  typeDecl attrs mods start := hP (.typeDecl h attrs mods start)
  structDecl attrs mods start := hP (.structDecl h attrs mods start)
  declarationAfter attrs start := hP (.declarationAfter h attrs start)
  declaration := hP (.declaration h)
  structMember := hP h.structMember
  structMemberRule := hP (.structMemberRule h)
  block := hP h.block
  blockRule := hP (.blockRule h)
  condition := hP (.condition h)
  elseIf := hP h.elseIf
  ifRule := hP (.ifRule h)
  whileRule := hP (.whileRule h)
  forRule := hP (.forRule h)
  expressionStatement start := hP (.expressionStatement h start)

/-- Nesting and struct literals are at the stop of a parser what they were where it started. -/
def Outcome.Restores (s : State) (o : Outcome α) : Prop :=
  o.stop.depth = s.depth ∧ o.stop.structLiterals = s.structLiterals

theorem Agrees.restores {p q : Parser α} (h : Agrees s.depth p q) : Outcome.Restores s (p s) :=
  ⟨(h s rfl).2.depth, (h s rfl).2.structLiterals⟩

theorem Rules.constructs_restore (n : Nat) (s : State) :
    (within n).Constructs fun p => Outcome.Restores s (p s) :=
  (within_agree n s.depth).related.governed.constructs Agrees.restores

theorem Rules.statements_restore (n : Nat) (s : State) :
    (within n).Statements fun p => Outcome.Restores s (p s) := by
  have h := (within_agree n s.depth).related
  exact ⟨Agrees.restores h.statement, Agrees.restores (Congruence.Rel.statementRule h.governed),
    Agrees.restores (Congruence.Rel.statementBody h.governed),
    fun inBlock => Agrees.restores (Congruence.Rel.statements h.statement inBlock)⟩

theorem State.Idle.along (hs : s.Idle) : Along s.ahead false State.Idle s :=
  ⟨List.suffix_refl _, Bool.noConfusion, hs⟩

theorem State.Clean.along (hs : s.Clean) : Along s.ahead true State.Idle s :=
  ⟨List.suffix_refl _, fun _ => hs.structLiterals, hs.idle⟩

theorem Calms.stop {p q : Parser α} (h : Calms tokens free I State.Idle p q) (hs : Along tokens free I s) :
    (Outcome.stop (p s)).Idle := (Outcome.ends_iff_stop.mp (h s hs).2.2).mode

theorem Outcome.Ends.mode {o : Outcome α} (h : o.Ends (Along tokens free J) (Along tokens free E)) : o.Ends J E := by
  cases o with
  | ok a t => exact Along.mode h
  | error e t => exact Along.mode h

/-- Constructs leave no `async` waiting where none waited. -/
theorem Rules.constructs_idle (n : Nat) (hs : s.Idle) :
    (within n).Constructs fun p => (Outcome.stop (p s)).Idle :=
  (Rules.Modal.within n).governed.constructs fun h => Calms.stop h hs.along

/-- Statements leave none waiting if they can be read. -/
theorem Rules.statements_tidy (n : Nat) (hs : s.Clean) :
    (within n).Statements fun p => Outcome.Ends State.Idle (State.Tidy s.ahead) (p s) := by
  have h : (within n).Modal s.ahead (within n) := .within n
  have hstart {p : Parser Node} (hp : (modes s.ahead).Start p p) :
      Outcome.Ends State.Idle (State.Tidy s.ahead) (p s) := Outcome.Ends.mode (hp s hs.along).2.2
  have hstatements (inBlock : Bool) : (modes s.ahead).Rel true (statements (within n).statement inBlock)
      (statements (within n).statement inBlock) := .statements h.governed.statement inBlock
  exact ⟨hstart h.governed.statement, hstart (statementRule_tends h.governed h.expression),
    hstart (statementBody_tends h.governed h.expression),
    fun inBlock => Outcome.Ends.mode (Carries.calmly (hstatements inBlock) s hs.along).2.2⟩

/-- A function that starts too deep: its `async` has been taken when the expression is refused. -/
example : (Outcome.stop ((Rules.within 1).statement
    (State.start (TokenStream.ofSource (Source.ofText 0 "a" "async func () => 1"))))).pendingAsync.isSome = true := by
  decide +kernel

theorem State.clean_start (stream : TokenStream) : (State.start stream).Clean := ⟨rfl, rfl⟩

end Grammar

open Grammar

/-- Whatever is read from whatever place, failed or not, nesting and struct literals are as before afterwards. A
    source is read as it is by rules that are confined to their modes at every level, whatever they do in others: a
    statement is only entered where struct literals may start and no `async` waits, an expression also while the
    `async` that was taken last waits and its `func` is the nearest token, and nothing else while one waits.
    Constructs leave none waiting, nor do statements unless they failed at the `func`, where the expression was
    refused. The closure or function at the `func` takes the `async` before any token, and recovery lets go of
    it. -/
theorem parsing_restores_modes (limit : Nat) (other : Rules) (source : Source) :
    (∀ s, (Rules.within limit).Constructs (fun p => Outcome.Restores s (p s)) ∧
      (Rules.within limit).Statements (fun p => Outcome.Restores s (p s))) ∧
    programFrom (Rules.confined (TokenStream.ofSource source).tokens other limit) source.id
      (State.start (TokenStream.ofSource source)) = parseWithin limit source ∧
    (∀ s, (s.Idle → (Rules.within limit).Constructs fun p => (Outcome.stop (p s)).Idle) ∧
      (s.Clean → (Rules.within limit).Statements fun p => Outcome.Ends State.Idle (State.Tidy s.ahead) (p s))) ∧
    (∀ tokens (s : State), s.ahead <:+ tokens → s.Tidy tokens →
      Outcome.Ends State.Idle (State.Tidy tokens) ((Rules.within limit).expression s)) ∧
    (∀ (s : State) range, s.pendingAsync = some range → s.kind = .kwFunc →
      primary (Rules.within limit) s = closureFrom (Rules.within limit) range true { s with pendingAsync := none } ∧
      ∀ attrs start, declarationAfter (Rules.within limit) attrs start s =
        functionFrom (Rules.within limit) attrs Modifiers.none start true { s with pendingAsync := none }) ∧
    ∀ mark inBlock s, (Outcome.stop (synchronize mark inBlock s)).Idle := by
  refine ⟨fun s => ⟨Rules.constructs_restore limit s, Rules.statements_restore limit s⟩, ?_,
    fun s => ⟨Rules.constructs_idle limit, Rules.statements_tidy limit⟩, ?_, ?_, synchronize_idle⟩
  · have hmodal : (Rules.within limit).Modal (TokenStream.ofSource source).tokens
        (Rules.confined (TokenStream.ofSource source).tokens other limit) := .confined other limit
    have hstatements : (modes _).Rel true (statements (Rules.within limit).statement false)
        (statements (Rules.confined _ other limit).statement false) := .statements hmodal.governed.statement false
    have hsame := (hstatements _ (State.clean_start (TokenStream.ofSource source)).along).1
    rw [parseWithin, programFrom, programFrom, itemsFrom, itemsFrom, hsame]
  · intro tokens s hahead htidy
    have hmodal : (Rules.within limit).Modal tokens (Rules.within limit) := .within limit
    have hs : Along tokens false (State.Tidy tokens) s := ⟨hahead, Bool.noConfusion, htidy⟩
    exact Outcome.Ends.mode (hmodal.expression s hs).2.2
  · intro s range hs hk
    exact ⟨(primary_of_func hk).trans (closure_of_pending hs), fun _ _ => declarationAfter_of_pending hk hs⟩

end BraceLang
