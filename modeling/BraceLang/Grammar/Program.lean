import BraceLang.Grammar.Statements

/-! Parsing a source. The rules of the grammar refer to each other only one level of nesting deeper, so
    they are tied together by recursion on the number of levels that are left. -/

namespace BraceLang

namespace Grammar

/-- The rules with `n` levels of nesting left. -/
def Rules.within : Nat → Rules
  | 0 =>
    { expression := tooDeep
      type := tooDeep
      statement := tooDeep
      block := tooDeep
      structMember := tooDeep
      operand := fun _ => tooDeep
      unary := tooDeep
      elseIf := tooDeep }
  | n + 1 =>
    let inner := within n
    { expression := nested (expressionRule inner)
      type := nested (typeRule inner)
      statement := nested (statementRule inner)
      block := nested (blockRule inner)
      structMember := nested (structMemberRule inner)
      operand := fun limit => nested (binary inner limit)
      unary := nested (prefixed inner)
      elseIf := nested (ifRule inner) }

/-- The deepest nesting that is accepted. -/
def nestingLimit : Nat := 256

/-- The rules of the language. -/
def rules : Rules := Rules.within nestingLimit

/-- An expression. -/
def expression : Parser Node := rules.expression

/-- A type. -/
def type : Parser Node := rules.type

/-- The statements from a place up to the end, under the given rules, and the place after them. -/
def itemsFrom (rules : Rules) (s : State) : List Node × State :=
  match statements rules.statement false s with
  | .ok items t => (items, t)
  | .error _ t => ([], t)

/-- The program that the tokens from a place up to the end spell, and everything reported. -/
def programFrom (rules : Rules) (source : Nat) (s : State) : Program × Log :=
  let (items, t) := itemsFrom rules s
  (⟨source, items, t.nextId⟩, t.log)

end Grammar

/-- Parses a source with the given limit on nesting. -/
def parseWithin (limit : Nat) (source : Source) : Program × Log :=
  Grammar.programFrom (Grammar.Rules.within limit) source.id
    (Grammar.State.start (TokenStream.ofSource source))

/-- Parses a source. Whatever is wrong with it, a program with everything that could be read is given. -/
def parse (source : Source) : Program × Log := parseWithin Grammar.nestingLimit source

end BraceLang
