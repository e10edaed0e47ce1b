import BraceLang.Proofs.Grammar.Moves

/-! The grammar is put together from its rules by few operations. A relation between parsers that these
    operations keep (`Discipline`) holds between what the grammar makes of two sets of rules if it holds
    between the rules: there is one lemma for each construct, whatever the relation says. A relation that
    needs nothing of the place a parser starts at is kept by statements as well (`Congruence`). Agreement at
    a nesting is such a relation, as the grammar refers to its rules only at the nesting it was entered
    with. -/

namespace BraceLang.Grammar

/-- Two sets of rules agree at a nesting. -/
structure Rules.Agree (depth : Nat) (r q : Rules) : Prop where
  expression : Agrees depth r.expression q.expression
  type : Agrees depth r.type q.type
  statement : Agrees depth r.statement q.statement
  block : Agrees depth r.block q.block
  structMember : Agrees depth r.structMember q.structMember
  operand (limit : Nat) : Agrees depth (r.operand limit) (q.operand limit)
  unary : Agrees depth r.unary q.unary
  elseIf : Agrees depth r.elseIf q.elseIf

/-! ### Parsers that refer to no rule -/

namespace Plain

theorem atArraySuffix : Plain atArraySuffix := by
  refine .bind .peek fun k => ?_
  split
  · exact .pure
  · exact .bind .peek fun _ => .pure
  · exact .bind .peek fun _ => .pure
  · exact .pure

theorem pathRest : Plain pathRest :=
  .bind
    (.repeating fun _ => .bind .check fun _ => .bind .peek fun _ => .ite
      (.bind .advance fun _ => .bind .expectName fun _ => .pure) .pure)
    fun _ => .pure

theorem closureStart : Plain closureStart := by
  refine .bind .takePendingAsync fun pending => ?_
  split
  · exact .pure
  · exact .bind .here fun _ => .bind .eat fun _ => .pure

theorem atStructLiteral : Plain atStructLiteral := by
  refine .bind .peek fun k => ?_
  split
  · exact .pure
  · exact .bind .peek fun _ => .pure
  · exact .pure

theorem memberName : Plain memberName := by
  refine .bind .kind fun k => ?_
  split
  · exact .bind .advance fun _ => .node
  · exact .bind .advance fun _ => .node
  · exact .unexpected

theorem patternStep (names : Array Ident) : Plain (patternStep names) :=
  .bind .check fun _ => .ite .pure
    (.bind .expectName fun _ => .bind .eat fun _ => .ite .pure .pure)

theorem pattern (start : Range) : Plain (pattern start) := by
  refine .bind .eat fun _ => .ite ?_ (.bind .expectName fun _ => .pure)
  refine .bind (.repeating patternStep) fun names => .bind .expect fun _ => ?_
  split
  · exact .pure
  · exact .bind .finish fun _ => .throw

theorem variableKeyword : Plain variableKeyword :=
  .bind .eat fun _ => .ite .pure (.bind .expect fun _ => .pure)

theorem overload {k : Kind} {start : Range} {name : String} : Plain (overload k start name) :=
  .bind .finish fun _ => .pure

theorem functionName : Plain functionName := by
  refine .bind .kind fun k => .bind .here fun start => ?_
  split
  · exact .bind .expectName fun _ => .pure
  · exact .bind .advance fun _ => overload
  · exact .bind .advance fun _ => .bind .expect fun _ => .bind .eat fun _ => overload
  · exact .bind .advance fun _ => .bind .expect fun _ => overload
  · split
    · exact .bind .advance fun _ => overload
    · exact .unexpected

theorem functionAsync : Plain functionAsync := by
  refine .bind .takePendingAsync fun pending => ?_
  split
  · exact .pure
  · exact .eat

theorem requireOptions {options : List Node} {range : Range} : Plain (requireOptions options range) :=
  .ite .report .pure

theorem skipSeparators : Plain skipSeparators :=
  .repeating fun _ => .bind .eat fun _ => .ite .pure (.bind .eat fun _ => .ite .pure .pure)

theorem modifierStep (mods : Modifiers) : Plain (modifierStep mods) := by
  refine .bind .kind fun k => ?_
  split
  · exact .bind .advance fun _ => .pure
  · exact .bind .advance fun _ => .pure
  · exact .pure

theorem boundaryStep (inBlock : Bool) (braces : Nat) : Plain (boundaryStep inBlock braces) := by
  refine .bind .kind fun k => ?_
  split
  · exact .pure
  · exact .ite .pure (.bind .advance fun _ => .pure)
  · exact .bind .advance fun _ => .pure
  · exact .bind .advance fun _ => .pure
  · exact .ite .pure (.bind .advance fun _ => .pure)

theorem skipToBoundary (inBlock : Bool) : Plain (skipToBoundary inBlock) :=
  .bind (.repeating (boundaryStep inBlock)) fun _ => .pure

theorem skipUnmoved (mark : Nat) : Plain (skipUnmoved mark) :=
  .bind .get fun _ => .bind .check fun _ => .ite (.bind .advance fun _ => .pure) .pure

theorem skip (mark : Nat) (inBlock : Bool) :
    Plain (do Grammar.skipUnmoved mark; Grammar.skipToBoundary inBlock) :=
  .bind (skipUnmoved mark) fun _ => skipToBoundary inBlock

theorem synchronize (mark : Nat) (inBlock : Bool) : Plain (synchronize mark inBlock) :=
  .bind .clearPendingAsync fun _ => skip mark inBlock

theorem atFunctionDecl : Plain atFunctionDecl := by
  refine .bind .peek fun k => ?_
  split
  · exact .bind .peek fun _ => .bind .peek fun _ => .pure
  · exact .pure

end Plain

/-- What waited when an error was met is let go of. -/
theorem synchronize_idle (mark : Nat) (inBlock : Bool) (s : State) :
    (Outcome.stop (synchronize mark inBlock s)).Idle :=
  Outcome.ends_iff_stop.mp ((Plain.skip mark inBlock).idle { s with pendingAsync := none } rfl).2.2

namespace Agrees
variable {depth : Nat}

theorem synchronize (mark : Nat) (inBlock : Bool) :
    Agrees depth (synchronize mark inBlock) (synchronize mark inBlock) := (Plain.synchronize mark inBlock).agrees

theorem statementStep {p p' : Parser Node} (h : Agrees depth p p') (inBlock : Bool)
    (items : Array Node) :
    Agrees depth (statementStep p inBlock items) (statementStep p' inBlock items) := by
  refine .bind .check fun _ => .bind .check fun _ => .ite .pure ?_
  refine .bind .get fun _ => .bind h.attempt fun outcome => ?_
  split
  · exact .pure
  · exact .bind .report fun _ => .bind (synchronize _ _) fun _ => .pure

end Agrees

/-! ### Relations that the grammar keeps -/

/-- Relations between parsers that are kept by what the grammar is put together with. The one for constructs may
    depend on whether it is known that struct literals may start; where statements start it is. It holds of a
    parser and itself if the parser does nothing but move on. -/
structure Discipline where
  Rel : ∀ {α : Type}, Bool → Parser α → Parser α → Prop
  Start : Parser Node → Parser Node → Prop
  same : ∀ {α : Type} {free : Bool} {p : Parser α}, Plain p → Rel free p p
  bind : ∀ {α β : Type} {free : Bool} {p q : Parser α} {f g : α → Parser β}, Rel free p q →
    (∀ a, Rel free (f a) (g a)) → Rel free (p >>= f) (q >>= g)
  withStructLiterals : ∀ {α : Type} {free : Bool} {p q : Parser α} (allowed : Bool), Rel allowed p q →
    Rel free (withStructLiterals allowed p) (withStructLiterals allowed q)
  repeating : ∀ {α : Type} {free : Bool} {f g : α → Parser (ForInStep α)} (a : α), (∀ a, Rel free (f a) (g a)) →
    Rel free (repeating a f) (repeating a g)
  statementStep : ∀ {p q : Parser Node} (inBlock : Bool) (items : Array Node), Start p q →
    Rel true (statementStep p inBlock items) (statementStep q inBlock items)

/-- The rules of two sets are related as a discipline asks. -/
structure Rules.Governed (D : Discipline) (r q : Rules) : Prop where
  expression {free : Bool} : D.Rel free r.expression q.expression
  type {free : Bool} : D.Rel free r.type q.type
  statement : D.Start r.statement q.statement
  block {free : Bool} : D.Rel free r.block q.block
  structMember {free : Bool} : D.Rel free r.structMember q.structMember
  operand {free : Bool} (limit : Nat) : D.Rel free (r.operand limit) (q.operand limit)
  unary {free : Bool} : D.Rel free r.unary q.unary
  elseIf {free : Bool} : D.Rel free r.elseIf q.elseIf

namespace Discipline.Rel
variable {D : Discipline} {free : Bool} {α β : Type} {p q : Parser α}

theorem same (h : Plain p) : D.Rel free p p := D.same h

theorem bind {f g : α → Parser β} (h : D.Rel free p q) (hf : ∀ a, D.Rel free (f a) (g a)) :
    D.Rel free (p >>= f) (q >>= g) :=
  D.bind h hf

theorem ite {c : Prop} [Decidable c] {p' q' : Parser α} (h : D.Rel free p q) (h' : D.Rel free p' q') :
    D.Rel free (if c then p else p') (if c then q else q') := by
  split
  · exact h
  · exact h'

theorem pure {a : α} : D.Rel free (pure a : Parser α) (Pure.pure a) := same .pure

theorem get : D.Rel free (MonadState.get : Parser State) MonadState.get := same .get

theorem kind : D.Rel free kind kind := same .kind

theorem peek {n : Nat} : D.Rel free (peek n) (peek n) := same .peek

theorem here : D.Rel free here here := same .here

theorem check {k : Kind} : D.Rel free (check k) (check k) := same .check

theorem advance : D.Rel free advance advance := same .advance

theorem unexpected {what : Expectation} : D.Rel free (unexpected what : Parser α) (Grammar.unexpected what) :=
  same .unexpected

theorem eat {k : Kind} : D.Rel free (eat k) (eat k) := same .eat

theorem expect {k : Kind} : D.Rel free (expect k) (expect k) := same .expect

theorem expectName : D.Rel free expectName expectName := same .expectName

theorem finish {start : Range} : D.Rel free (finish start) (finish start) := same .finish

theorem node {shape : Shape Node} {range : Range} : D.Rel free (node shape range) (node shape range) :=
  same .node

theorem close {start : Range} {shape : Shape Node} : D.Rel free (close start shape) (close start shape) :=
  same .close

theorem withStructLiterals {allowed : Bool} (h : D.Rel allowed p q) :
    D.Rel free (Grammar.withStructLiterals allowed p) (Grammar.withStructLiterals allowed q) :=
  D.withStructLiterals allowed h

theorem repeating {f g : α → Parser (ForInStep α)} {a : α} (h : ∀ a, D.Rel free (f a) (g a)) :
    D.Rel free (Grammar.repeating a f) (Grammar.repeating a g) :=
  D.repeating a h

theorem list {closing : Kind} {p q : Parser Node} (h : D.Rel true p q) :
    D.Rel free (list closing p) (list closing q) :=
  .withStructLiterals <| .bind
    (.repeating fun _ => .bind .check fun _ => .ite .pure
      (.bind h fun _ => .bind .eat fun _ => .ite .pure .pure))
    fun _ => .bind .expect fun _ => .pure

theorem optionalAfter {k : Kind} {p q : Parser Node} (h : D.Rel free p q) :
    D.Rel free (optionalAfter k p) (optionalAfter k q) :=
  .bind .eat fun _ => .ite (.bind h fun _ => .pure) .pure

end Discipline.Rel

/-! ### The constructs of the grammar -/

namespace Discipline.Rel
variable {D : Discipline} {free : Bool} {r q : Rules}

/-! ### Types -/

theorem arraySize (h : r.Governed D q) : D.Rel free (arraySize r) (arraySize q) :=
  .bind .check fun _ => .ite .pure (.bind (.withStructLiterals h.expression) fun _ => .pure)

theorem typeSuffixStep (h : r.Governed D q) (start : Range) (type : Node) :
    D.Rel free (typeSuffixStep r start type) (typeSuffixStep q start type) :=
  .bind .eat fun _ => .ite
    (.bind (arraySize h) fun _ => .bind .expect fun _ => .bind .close fun _ => .pure)
    (.bind .eat fun _ => .ite (.bind .close fun _ => .pure) .pure)

theorem namedType (h : r.Governed D q) : D.Rel free (namedType r) (namedType q) :=
  .bind .expectName fun _ => .bind (.same .pathRest) fun _ => .bind .check fun _ =>
    .bind (.same .atArraySuffix) fun _ => .ite
      (.bind .advance fun _ => .bind (.list h.type) fun _ => .pure) .pure

theorem pointee (h : r.Governed D q) : D.Rel free (pointee r) (pointee q) :=
  .bind .eat fun _ => .bind h.type fun _ => .pure

theorem baseType (h : r.Governed D q) : D.Rel free (baseType r) (baseType q) := by
  refine .bind .kind fun k => .ite (.bind .advance fun _ => .pure) ?_
  split
  · exact namedType h
  · exact .bind .advance fun _ => .bind (.list h.type) fun _ => .pure
  · exact .bind .advance fun _ => .bind .expect fun _ => .bind (.list h.type) fun _ =>
      .bind (.optionalAfter h.type) fun _ => .pure
  · exact .bind .advance fun _ => pointee h
  · exact .bind .advance fun _ => .bind .here fun _ => .bind (pointee h) fun _ =>
      .bind .close fun _ => .pure
  · exact .unexpected

theorem typeRule (h : r.Governed D q) : D.Rel free (typeRule r) (typeRule q) :=
  .bind .here fun _ => .bind (baseType h) fun _ => .bind .close fun _ =>
    .repeating (typeSuffixStep h _)

/-! ### Expressions -/

theorem parameter (h : r.Governed D q) : D.Rel free (parameter r) (parameter q) :=
  .bind .here fun _ => .bind .expectName fun _ => .bind (.optionalAfter h.type) fun _ =>
    .bind (.optionalAfter h.expression) fun _ => .close

theorem callSignature (h : r.Governed D q) : D.Rel free (callSignature r) (callSignature q) :=
  .bind .here fun _ => .bind .expect fun _ => .bind (.list (parameter h)) fun _ =>
    .bind (.optionalAfter h.type) fun _ => .close

theorem closureBody (h : r.Governed D q) : D.Rel free (closureBody r) (closureBody q) :=
  .bind .eat fun _ => .ite h.expression (.bind .check fun _ => .ite h.block .unexpected)

theorem closure (h : r.Governed D q) : D.Rel free (closure r) (closure q) :=
  .bind (.same .closureStart) fun _ => .bind .expect fun _ => .bind (callSignature h) fun _ =>
    .bind (closureBody h) fun _ => .close

theorem templateStep (h : r.Governed D q) (parts : Array Node) :
    D.Rel free (templateStep r parts) (templateStep q parts) := by
  refine .bind .kind fun k => ?_
  split
  · exact .bind .advance fun _ => .pure
  · exact .bind .advance fun _ => .ite .pure (.bind .node fun _ => .pure)
  · exact .unexpected
  · exact .bind (.withStructLiterals h.expression) fun _ => .pure

theorem template (h : r.Governed D q) : D.Rel free (template r) (template q) :=
  .bind .here fun _ => .bind .expect fun _ => .bind (.repeating (templateStep h)) fun _ => .close

theorem moreElements (h : r.Governed D q) (first : Node) :
    D.Rel free (moreElements r first) (moreElements q first) :=
  .bind
    (.repeating fun _ => .bind .eat fun _ => .bind .check fun _ => .ite
      (.bind h.expression fun _ => .pure) .pure)
    fun _ => .pure

theorem insideParens (h : r.Governed D q) : D.Rel free (insideParens r) (insideParens q) :=
  .bind .check fun _ => .ite (.bind .expect fun _ => .pure)
    (.bind h.expression fun _ => .bind .check fun _ => .bind (moreElements h _) fun _ =>
      .bind .expect fun _ => .pure)

theorem parenthesized (h : r.Governed D q) : D.Rel free (parenthesized r) (parenthesized q) :=
  .bind .here fun _ => .bind .expect fun _ => .bind (.withStructLiterals (insideParens h)) fun _ =>
    .close

theorem fieldInit (h : r.Governed D q) : D.Rel free (fieldInit r) (fieldInit q) :=
  .bind .here fun _ => .bind .expectName fun _ => .bind .expect fun _ =>
    .bind h.expression fun _ => .close

theorem nameOrStructLiteral (h : r.Governed D q) :
    D.Rel free (nameOrStructLiteral r) (nameOrStructLiteral q) :=
  .bind .here fun _ => .bind .advance fun _ => .bind .node fun _ => .bind .get fun _ =>
    .bind .check fun _ => .bind (.same .atStructLiteral) fun _ => .ite
      (.bind .expect fun _ => .bind (.list (fieldInit h)) fun _ => .close) .pure

theorem optionalValue (ends : Kind → Bool) (h : r.Governed D q) :
    D.Rel free (optionalValue ends r) (optionalValue ends q) :=
  .bind .kind fun _ => .ite .pure (.bind h.expression fun _ => .pure)

theorem primary (h : r.Governed D q) : D.Rel free (primary r) (primary q) := by
  refine .bind .here fun start => .bind .kind fun k => ?_
  split
  case h_1 => exact .bind .advance fun _ => .node
  case h_2 => exact .bind .advance fun _ => .node
  case h_3 => exact .bind .advance fun _ => .node
  case h_4 => exact .bind .advance fun _ => .node
  case h_5 => exact .bind .advance fun _ => .node
  case h_6 => exact .bind .advance fun _ => .node
  case h_7 => exact template h
  case h_8 => exact parenthesized h
  case h_9 => exact h.block
  case h_10 => exact .bind .advance fun _ => .bind (.list h.expression) fun _ => .close
  case h_11 => exact .bind .advance fun _ => .bind .expectName fun _ => .close
  case h_12 => exact nameOrStructLiteral h
  case h_13 => exact closure h
  case h_14 => exact closure h
  case h_15 =>
    exact .bind .advance fun _ => .bind h.type fun _ => .bind .expect fun _ =>
      .bind (.list h.expression) fun _ => .close
  case h_16 => exact .bind .advance fun _ => .bind (optionalValue _ h) fun _ => .close
  case h_17 => exact .bind .advance fun _ => .bind h.expression fun _ => .close
  case h_18 => exact .unexpected

theorem suffix? (h : r.Governed D q) (target : Node) :
    D.Rel free (suffix? r target) (suffix? q target) := by
  refine .bind .kind fun k => ?_
  split
  · exact .bind .advance fun _ => .pure
  · exact .bind .advance fun _ => .pure
  · exact .bind .advance fun _ => .bind (.same .memberName) fun _ => .pure
  · exact .bind .advance fun _ => .bind (.same .memberName) fun _ => .pure
  · exact .bind .advance fun _ => .bind (.list h.expression) fun _ => .pure
  · exact .bind .advance fun _ => .bind .eat fun _ => .ite
      (.bind (.list h.expression) fun _ => .pure) .pure
  · exact .bind .advance fun _ => .bind (.list h.expression) fun _ => .pure
  · exact .bind .advance fun _ => .bind h.type fun _ => .pure
  · exact .pure

theorem suffixStep (h : r.Governed D q) (start : Range) (target : Node) :
    D.Rel free (suffixStep r start target) (suffixStep q start target) := by
  refine .bind (suffix? h target) fun found => ?_
  split
  · exact .bind .close fun _ => .pure
  · exact .pure

theorem suffixed (h : r.Governed D q) : D.Rel free (suffixed r) (suffixed q) :=
  .bind .here fun _ => .bind (primary h) fun _ => .repeating (suffixStep h _)

theorem prefixed (h : r.Governed D q) : D.Rel free (prefixed r) (prefixed q) :=
  .bind .kind fun _ => .ite
    (.bind .here fun _ => .bind .advance fun _ => .bind h.unary fun _ => .close) (suffixed h)

theorem binaryStep (h : r.Governed D q) (limit : Nat) (start : Range) (lhs : Node) :
    D.Rel free (binaryStep r limit start lhs) (binaryStep q limit start lhs) :=
  .bind .kind fun _ => .ite
    (.bind .advance fun _ => .bind (h.operand _) fun _ => .bind .close fun _ => .pure) .pure

theorem binary (h : r.Governed D q) (limit : Nat) :
    D.Rel free (binary r limit) (binary q limit) :=
  .bind .here fun _ => .bind (prefixed h) fun _ => .repeating (binaryStep h limit _)

theorem assignment (h : r.Governed D q) : D.Rel free (assignment r) (assignment q) :=
  .bind .here fun _ => .bind (binary h _) fun _ => .bind .kind fun _ => .ite
    (.bind .advance fun _ => .bind h.expression fun _ => .close) .pure

theorem middleBranch (h : r.Governed D q) : D.Rel free (middleBranch r) (middleBranch q) :=
  .bind .eat fun _ => .ite .pure (.bind h.expression fun _ => .bind .expect fun _ => .pure)

theorem expressionRule (h : r.Governed D q) : D.Rel free (expressionRule r) (expressionRule q) :=
  .bind .here fun _ => .bind (assignment h) fun _ => .bind .kind fun _ => .ite
    (.bind .advance fun _ => .bind (middleBranch h) fun _ => .bind h.expression fun _ => .close) .pure

/-! ### Declarations -/

theorem attributes (h : r.Governed D q) : D.Rel free (attributes r) (attributes q) :=
  .repeating fun _ => .bind .eat fun _ => .ite
    (.bind .expect fun _ => .bind (.list h.expression) fun _ => .pure) .pure

theorem constraints (h : r.Governed D q) : D.Rel free (constraints r) (constraints q) :=
  .bind .eat fun _ => .ite
    (.bind
      (.repeating fun _ => .bind h.type fun _ => .bind .eat fun _ => .ite .pure .pure)
      fun _ => .pure)
    .pure

theorem genericParameter (h : r.Governed D q) :
    D.Rel free (genericParameter r) (genericParameter q) :=
  .bind .here fun _ => .bind .expectName fun _ => .bind (constraints h) fun _ => .close

theorem generics (h : r.Governed D q) : D.Rel free (generics r) (generics q) :=
  .bind .eat fun _ => .ite (.list (genericParameter h)) .pure

theorem variableDecl (h : r.Governed D q) (attrs : List Node) (mods : Modifiers) (start : Range)
    (required : Bool) :
    D.Rel free (variableDecl r attrs mods start required) (variableDecl q attrs mods start required) :=
  .bind (.same .variableKeyword) fun _ => .bind (.same (.pattern start)) fun _ =>
    .bind (.optionalAfter h.type) fun _ => .bind (.optionalAfter h.expression) fun _ => .ite .unexpected .close

theorem functionBody (h : r.Governed D q) : D.Rel free (functionBody r) (functionBody q) := by
  refine .bind .check fun _ => .ite (.bind h.block fun _ => .pure) ?_
  refine .bind .eat fun _ => .ite (.bind h.expression fun _ => .pure) ?_
  refine .bind .eat fun _ => .ite .pure (.bind .kind fun k => ?_)
  split
  · exact .pure
  · exact .pure
  · exact .ite .pure .unexpected

theorem functionDecl (h : r.Governed D q) (attrs : List Node) (mods : Modifiers) (start : Range) :
    D.Rel free (functionDecl r attrs mods start) (functionDecl q attrs mods start) :=
  .bind (.same .functionAsync) fun _ => .bind .expect fun _ => .bind (.same .functionName) fun _ =>
    .bind (.ite (generics h) .pure) fun _ => .bind (callSignature h) fun _ =>
      .bind (functionBody h) fun _ => .close

theorem enumOption (h : r.Governed D q) : D.Rel free (enumOption r) (enumOption q) :=
  .bind .here fun _ => .bind (attributes h) fun _ => .bind .expectName fun _ =>
    .bind (.optionalAfter h.expression) fun _ => .close

theorem enumDecl (h : r.Governed D q) (attrs : List Node) (mods : Modifiers) (start : Range) :
    D.Rel free (enumDecl r attrs mods start) (enumDecl q attrs mods start) :=
  .bind .expect fun _ => .bind .expectName fun _ => .bind (.optionalAfter h.type) fun _ =>
    .bind .expect fun _ => .bind (.list (enumOption h)) fun _ => .bind .finish fun _ =>
      .bind (.same .requireOptions) fun _ => .node

theorem unionMembers (h : r.Governed D q) (first : Node) :
    D.Rel free (unionMembers r first) (unionMembers q first) :=
  .bind (.repeating fun _ => .bind .eat fun _ => .ite (.bind h.type fun _ => .pure) .pure)
    fun _ => .pure

theorem typeDecl (h : r.Governed D q) (attrs : List Node) (mods : Modifiers) (start : Range) :
    D.Rel free (typeDecl r attrs mods start) (typeDecl q attrs mods start) :=
  .bind .expect fun _ => .bind .expectName fun _ => .bind (generics h) fun _ =>
    .bind .expect fun _ => .bind h.type fun _ => .bind .check fun _ => .ite
      (.bind (unionMembers h _) fun _ => .close) .close

theorem structMemberStep (h : r.Governed D q) (members : Array Node) :
    D.Rel free (structMemberStep r members) (structMemberStep q members) := by
  refine .bind .kind fun k => ?_
  split
  · exact .pure
  · exact .pure
  · exact .bind h.structMember fun _ => .bind (.same .skipSeparators) fun _ => .pure

theorem structDecl (h : r.Governed D q) (attrs : List Node) (mods : Modifiers) (start : Range) :
    D.Rel free (structDecl r attrs mods start) (structDecl q attrs mods start) :=
  .bind .expect fun _ => .bind .expectName fun _ => .bind (generics h) fun _ =>
    .bind .expect fun _ => .bind (.withStructLiterals (.repeating (structMemberStep h))) fun _ =>
      .bind .expect fun _ => .close

theorem declarationAfter (h : r.Governed D q) (attrs : List Node) (start : Range) :
    D.Rel free (declarationAfter r attrs start) (declarationAfter q attrs start) := by
  refine .bind (.same (.repeating .modifierStep)) fun mods => .bind .kind fun k => ?_
  split
  · exact structDecl h attrs mods start
  · exact enumDecl h attrs mods start
  · exact typeDecl h attrs mods start
  · exact variableDecl h attrs mods start false
  · exact variableDecl h attrs mods start false
  · exact functionDecl h attrs mods start
  · exact functionDecl h attrs mods start
  · exact .unexpected

theorem declaration (h : r.Governed D q) : D.Rel free (declaration r) (declaration q) :=
  .bind .here fun _ => .bind (attributes h) fun _ => declarationAfter h _ _

theorem structField (h : r.Governed D q) (attrs : List Node) (start : Range) :
    D.Rel free (structField r attrs start) (structField q attrs start) :=
  .bind .eat fun _ => .bind .expectName fun _ => .bind .expect fun _ => .bind h.type fun _ =>
    .bind (.optionalAfter h.expression) fun _ => .close

theorem structMemberRule (h : r.Governed D q) :
    D.Rel free (structMemberRule r) (structMemberRule q) :=
  .bind .here fun _ => .bind (attributes h) fun _ => .bind .check fun _ => .bind .check fun _ =>
    .bind .peek fun _ => .ite (structField h _ _) (declarationAfter h _ _)

/-! ### Statements -/

theorem statements {p p' : Parser Node} (h : D.Start p p') (inBlock : Bool) :
    D.Rel true (statements p inBlock) (statements p' inBlock) :=
  .bind (.repeating fun items => D.statementStep inBlock items h) fun _ => .pure

theorem blockRule (h : r.Governed D q) : D.Rel free (blockRule r) (blockRule q) :=
  .bind .here fun _ => .bind .expect fun _ =>
    .bind (.withStructLiterals (statements h.statement true)) fun _ => .bind .expect fun _ => .close

theorem condition (h : r.Governed D q) : D.Rel free (condition r) (condition q) :=
  .bind .kind fun _ => .ite
    (.bind .here fun _ => .withStructLiterals (variableDecl h _ _ _ _))
    (.bind .check fun _ => .bind .peek fun _ => .ite
      (.bind .advance fun _ => .bind .here fun _ =>
        .bind (.withStructLiterals (variableDecl h _ _ _ _)) fun _ => .bind .expect fun _ => .pure)
      (.withStructLiterals h.expression))

theorem elseBranch (h : r.Governed D q) : D.Rel free (elseBranch r) (elseBranch q) :=
  .bind .eat fun _ => .ite
    (.bind .check fun _ => .ite (.bind h.elseIf fun _ => .pure) (.bind h.block fun _ => .pure)) .pure

theorem ifRule (h : r.Governed D q) : D.Rel free (ifRule r) (ifRule q) :=
  .bind .here fun _ => .bind .expect fun _ => .bind (condition h) fun _ => .bind h.block fun _ =>
    .bind (elseBranch h) fun _ => .close

theorem whileRule (h : r.Governed D q) : D.Rel free (whileRule r) (whileRule q) :=
  .bind .here fun _ => .bind .advance fun _ => .bind (condition h) fun _ => .bind h.block fun _ =>
    .close

theorem headerPart (h : r.Governed D q) (stop : Kind) :
    D.Rel free (headerPart r stop) (headerPart q stop) :=
  .bind (optionalValue _ h) fun _ => .bind .expect fun _ => .pure

theorem headerInit (h : r.Governed D q) : D.Rel free (headerInit r) (headerInit q) :=
  .bind .kind fun _ => .ite
    (.bind .here fun _ => .bind (variableDecl h _ _ _ _) fun _ => .bind .expect fun _ => .pure)
    (headerPart h _)

theorem forRule (h : r.Governed D q) : D.Rel free (forRule r) (forRule q) :=
  .bind .here fun _ => .bind .expect fun _ => .bind .expect fun _ => .bind (headerInit h) fun _ =>
    .bind (headerPart h _) fun _ => .bind (headerPart h _) fun _ => .bind h.block fun _ => .close

theorem expressionStatement (h : r.Governed D q) (start : Range) :
    D.Rel free (expressionStatement r start) (expressionStatement q start) :=
  .bind h.expression fun _ => .close

end Discipline.Rel

/-- A relation between parsers that is kept by what the grammar is put together with. It holds of a parser and
    itself if the parser does nothing but move on. -/
structure Congruence where
  Rel : ∀ {α : Type}, Parser α → Parser α → Prop
  same : ∀ {α : Type} {p : Parser α}, (∀ depth, Agrees depth p p) → Rel p p
  bind : ∀ {α β : Type} {p q : Parser α} {f g : α → Parser β}, Rel p q → (∀ a, Rel (f a) (g a)) →
    Rel (p >>= f) (q >>= g)
  withStructLiterals : ∀ {α : Type} {p q : Parser α} (allowed : Bool), Rel p q →
    Rel (withStructLiterals allowed p) (withStructLiterals allowed q)
  repeating : ∀ {α : Type} {f g : α → Parser (ForInStep α)} (a : α), (∀ a, Rel (f a) (g a)) →
    Rel (repeating a f) (repeating a g)
  statementStep : ∀ {p q : Parser Node} (inBlock : Bool) (items : Array Node), Rel p q →
    Rel (statementStep p inBlock items) (statementStep q inBlock items)

/-- Agreement at a nesting. -/
def agreement (depth : Nat) : Congruence where
  Rel := Agrees depth
  same h := h depth
  bind := .bind
  withStructLiterals _ := .withStructLiterals
  repeating _ := .repeating
  statementStep inBlock items h := .statementStep h inBlock items

/-- The relation holds between the rules of two sets. -/
structure Rules.Related (C : Congruence) (r q : Rules) : Prop where
  expression : C.Rel r.expression q.expression
  type : C.Rel r.type q.type
  statement : C.Rel r.statement q.statement
  block : C.Rel r.block q.block
  structMember : C.Rel r.structMember q.structMember
  operand (limit : Nat) : C.Rel (r.operand limit) (q.operand limit)
  unary : C.Rel r.unary q.unary
  elseIf : C.Rel r.elseIf q.elseIf

theorem Rules.Agree.related {depth : Nat} {r q : Rules} (h : r.Agree depth q) : r.Related (agreement depth) q :=
  ⟨h.expression, h.type, h.statement, h.block, h.structMember, h.operand, h.unary, h.elseIf⟩

theorem Rules.Related.agree {depth : Nat} {r q : Rules} (h : r.Related (agreement depth) q) : r.Agree depth q :=
  ⟨h.expression, h.type, h.statement, h.block, h.structMember, h.operand, h.unary, h.elseIf⟩

/-- The discipline of one relation for all that the grammar reads. -/
def Congruence.discipline (C : Congruence) : Discipline where
  Rel _ := C.Rel
  Start := C.Rel
  same h := C.same fun _ => h.agrees
  bind := C.bind
  withStructLiterals := C.withStructLiterals
  repeating := C.repeating
  statementStep := C.statementStep

theorem Rules.Related.governed {C : Congruence} {r q : Rules} (h : r.Related C q) : r.Governed C.discipline q :=
  ⟨h.expression, h.type, h.statement, h.block, h.structMember, h.operand, h.unary, h.elseIf⟩

namespace Congruence.Rel
variable {C : Congruence} {α : Type} {r q : Rules}

theorem of_discipline {p q : Parser α} (h : C.discipline.Rel true p q) : C.Rel p q := h

theorem templateStep (h : r.Related C q) (parts : Array Node) :
    C.Rel (templateStep r parts) (templateStep q parts) := of_discipline (.templateStep h.governed parts)

theorem template (h : r.Related C q) : C.Rel (template r) (template q) := of_discipline (.template h.governed)

theorem statements {p p' : Parser Node} (h : C.Rel p p') (inBlock : Bool) :
    C.Rel (statements p inBlock) (statements p' inBlock) :=
  of_discipline (Discipline.Rel.statements (D := C.discipline) h inBlock)

theorem asyncStatement (h : r.Governed C.discipline q) :
    C.discipline.Rel true (asyncStatement r) (asyncStatement q) :=
  .bind .here fun _ => .bind .advance fun _ => .bind (C.same fun _ => .setPendingAsync) fun _ =>
    .bind (.same .atFunctionDecl) fun _ => .ite (.declarationAfter h _ _) (.expressionStatement h _)

theorem statementBody (h : r.Governed C.discipline q) :
    C.discipline.Rel true (statementBody r) (statementBody q) := by
  refine .bind .here fun start => .bind .kind fun k => ?_
  split
  case h_9 =>
    exact .bind (.same .atFunctionDecl) fun _ => .ite (.declaration h) (.expressionStatement h start)
  case h_10 =>
    exact .bind .peek fun _ => .ite (asyncStatement h) (.expressionStatement h start)
  case h_11 => exact h.block
  case h_12 => exact .ifRule h
  case h_13 => exact .whileRule h
  case h_14 => exact .forRule h
  case h_15 => exact .bind .advance fun _ => .bind h.statement fun _ => .close
  case h_16 => exact .bind .advance fun _ => .bind (.optionalValue _ h) fun _ => .close
  case h_17 => exact .bind .advance fun _ => .close
  case h_18 => exact .bind .advance fun _ => .close
  case h_19 => exact .expressionStatement h start
  all_goals exact .declaration h

theorem statementRule (h : r.Governed C.discipline q) :
    C.discipline.Rel true (statementRule r) (statementRule q) :=
  .bind (statementBody h) fun _ => .bind .eat fun _ => .pure

/-- What stands for the rules one level further out is related if that is so of the rules. -/
theorem around {D : Congruence} {w w' : ∀ {α : Type}, Parser α → Parser α}
    (hw : ∀ {α : Type} {p p' : Parser α}, C.Rel p p' → D.Rel (w p) (w' p')) (h : r.Related C q) :
    Rules.Related D
      { expression := w (Grammar.expressionRule r)
        type := w (Grammar.typeRule r)
        statement := w (Grammar.statementRule r)
        block := w (Grammar.blockRule r)
        structMember := w (Grammar.structMemberRule r)
        operand := fun limit => w (Grammar.binary r limit)
        unary := w (Grammar.prefixed r)
        elseIf := w (Grammar.ifRule r) }
      { expression := w' (Grammar.expressionRule q)
        type := w' (Grammar.typeRule q)
        statement := w' (Grammar.statementRule q)
        block := w' (Grammar.blockRule q)
        structMember := w' (Grammar.structMemberRule q)
        operand := fun limit => w' (Grammar.binary q limit)
        unary := w' (Grammar.prefixed q)
        elseIf := w' (Grammar.ifRule q) } where
  expression := hw (of_discipline (.expressionRule h.governed))
  type := hw (of_discipline (.typeRule h.governed))
  statement := hw (of_discipline (statementRule h.governed))
  block := hw (of_discipline (.blockRule h.governed))
  structMember := hw (of_discipline (.structMemberRule h.governed))
  operand limit := hw (of_discipline (.binary h.governed limit))
  unary := hw (of_discipline (.prefixed h.governed))
  elseIf := hw (of_discipline (.ifRule h.governed))

end Congruence.Rel

end BraceLang.Grammar
