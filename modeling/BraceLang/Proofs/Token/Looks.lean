import BraceLang.Proofs.Token.Layout

/-! What one look at the text can give. Blanks and comments give nothing, a word, a number or a literal gives one
    token, which starts where the look does (`Lexer.Simple`), and all else is a template or a symbol
    (`Lexer.scan_cases`). -/

namespace BraceLang.Lexer

variable {lx : Lexer} {first : Char} {rest : List Char}

/-- The look gives at most one token, a plain one that starts where the look does. -/
structure Simple (lx : Lexer) (s : Scan) : Prop where
  hole : s.hole = lx.hole
  tokens : s.tokens = [] ∨ ∃ t n, s.tokens = [t] ∧ t.kind.isPlain = true ∧ t.range = lx.rangeAt 0 n

theorem skip_simple (n : Nat) (errors : List LexError) : lx.Simple (lx.skip n errors) := ⟨rfl, .inl rfl⟩

theorem emit_simple {t : Token} {length : Nat} (plain : t.kind.isPlain = true)
    (range : t.range = lx.rangeAt 0 length) (n : Nat) (errors : List LexError) :
    lx.Simple (lx.emit n t errors) := ⟨rfl, .inr ⟨t, length, rfl, plain, range⟩⟩

theorem blockComment_simple (body : List Char) : lx.Simple (lx.blockComment body) := by
  unfold blockComment
  split
  · exact skip_simple _ _
  · exact skip_simple _ _

theorem word_simple : lx.Simple (lx.word first rest) := by
  simp only [word]
  split
  · exact emit_simple rfl rfl _ _
  · rename_i found
    exact emit_simple (Kind.isPlain_of_ofWord? found) rfl _ _
  · exact emit_simple rfl rfl _ _

theorem integer_simple (chars : List Char) (value : Nat) : lx.Simple (lx.integer chars value) := by
  unfold integer
  split
  · exact emit_simple rfl rfl _ _
  · exact emit_simple rfl rfl _ _

theorem radixInteger_simple (radix : Radix) (letter : Char) : lx.Simple (lx.radixInteger radix letter rest) := by
  simp only [radixInteger]
  split
  · exact emit_simple rfl rfl _ _
  · exact integer_simple _ _

theorem decimalNumber_simple : lx.Simple (lx.decimalNumber first rest) := by
  simp only [decimalNumber]
  split
  · exact emit_simple rfl rfl _ _
  · exact integer_simple _ _

theorem charLiteral_simple : lx.Simple (lx.charLiteral rest) := by
  unfold charLiteral
  split
  case h_4 =>
    dsimp only
    split
    · exact emit_simple rfl rfl _ _
    · exact skip_simple _ _
  all_goals exact skip_simple _ _

theorem stringLiteral_simple : lx.Simple (lx.stringLiteral rest) := by
  unfold stringLiteral
  split
  · exact emit_simple rfl rfl _ _
  · exact emit_simple rfl rfl _ _

/-- A look is a simple one, or one at a template or a symbol. -/
theorem scan_cases (lx : Lexer) (first : Char) (rest : List Char) : lx.Simple (lx.scan first rest) ∨
    first = '\x60' ∧ lx.scan first rest = lx.template rest ∨
    ∃ k, Kind.ofSymbol? (first :: rest) = some k ∧ lx.scan first rest = lx.symbol k rest := by
  unfold scan
  split
  · exact .inl (skip_simple _ _)
  split
  · exact .inl word_simple
  split
  · split
    · split
      · exact .inl (radixInteger_simple _ _)
      · exact .inl decimalNumber_simple
    · exact .inl decimalNumber_simple
  split
  · exact .inl (skip_simple _ _)
  · exact .inl (blockComment_simple _)
  · exact .inl charLiteral_simple
  · exact .inl stringLiteral_simple
  · exact .inr (.inl ⟨rfl, rfl⟩)
  · split
    · exact .inr (.inr ⟨_, ‹_›, rfl⟩)
    · exact .inl (skip_simple _ _)

end BraceLang.Lexer
