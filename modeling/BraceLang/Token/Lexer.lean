import BraceLang.Token.Scan

/-! Reading tokens off a source, one at a time: `Lexer.next` gives one token and the lexer after it. At
    the end of the text the end is given again and again.

    Main statement: every token but the end brings the end nearer (`Lexer.next_remaining_lt`), so the
    tokens up to the end form a finite stream (`Lexer.stream`). -/

namespace BraceLang

/-- A token with what was found wrong on the way to it. -/
structure Lexed where
  token : Token
  errors : List LexError
deriving DecidableEq

namespace Lexer

/-- The lexer after a scan; the tokens of the scan after its first wait to be handed out. -/
def after (lx : Lexer) (s : Scan) : Lexer :=
  { lx with
    cursor := lx.cursor.advance (s.length + 1)
    pending := s.tokens.tail
    hole := s.hole }

/-- The empty range at the end of the text. -/
def endRange (lx : Lexer) : Range := lx.source.range lx.source.length lx.source.length

/-- At the end of the text: closes a template whose hole is open, and otherwise gives the end. -/
def atEnd (lx : Lexer) : Lexed × Lexer :=
  match lx.hole with
  | some _ =>
    (⟨.bare .templateClose lx.endRange, [⟨.unterminated .hole, lx.endRange⟩]⟩, { lx with hole := none })
  | none => (⟨.bare .eof lx.endRange, []⟩, lx)

theorem ahead_after_lt {lx : Lexer} {c : Char} {rest : List Char} (h : lx.cursor.ahead = c :: rest)
    (s : Scan) : (lx.after s).cursor.ahead.length < lx.cursor.ahead.length := by
  simp only [after, Cursor.advance, h, List.length_drop, List.length_cons]
  omega

/-- The next token that the text ahead gives, and what is wrong before it. -/
def read (lx : Lexer) (errors : List LexError) : Lexed × Lexer :=
  match _h : lx.cursor.ahead with
  | [] =>
    let (lexed, lx) := lx.atEnd
    ({ lexed with errors := errors ++ lexed.errors }, lx)
  | first :: rest =>
    let s := lx.scan first rest
    match s.tokens with
    | [] => (lx.after s).read (errors ++ s.errors)
    | token :: _ => (⟨token, errors ++ s.errors⟩, lx.after s)
termination_by lx.cursor.ahead.length
decreasing_by exact ahead_after_lt _h _

/-- The next token. -/
def next (lx : Lexer) : Lexed × Lexer :=
  match lx.pending with
  | token :: pending => (⟨token, []⟩, { lx with pending })
  | [] => lx.read []

/-! ### Progress -/

/-- A bound on the tokens still to come. -/
def remaining (lx : Lexer) : Nat :=
  4 * lx.cursor.ahead.length + lx.pending.length + if lx.hole.isSome then 1 else 0

theorem templateText_tokens_length_le (lx : Lexer) (rest : List Char) (resumed : Bool) :
    (lx.templateText rest resumed).tokens.length ≤ 2 := by
  simp only [templateText]
  split <;> (repeat' split) <;> simp

theorem integer_tokens_length (lx : Lexer) (chars : List Char) (value : Nat) :
    (lx.integer chars value).tokens.length = 1 := by
  simp only [integer, emit]
  split <;> rfl

theorem radixInteger_tokens_length (lx : Lexer) (radix : Radix) (letter : Char) (rest : List Char) :
    (lx.radixInteger radix letter rest).tokens.length = 1 := by
  simp only [radixInteger]
  split
  · rfl
  · exact lx.integer_tokens_length _ _

theorem decimalNumber_tokens_length (lx : Lexer) (first : Char) (rest : List Char) :
    (lx.decimalNumber first rest).tokens.length = 1 := by
  simp only [decimalNumber]
  split
  · rfl
  · exact lx.integer_tokens_length _ _

theorem blockComment_tokens (lx : Lexer) (body : List Char) : (lx.blockComment body).tokens = [] := by
  simp only [blockComment]
  split <;> rfl

theorem charLiteral_tokens_length_le (lx : Lexer) (rest : List Char) :
    (lx.charLiteral rest).tokens.length ≤ 1 := by
  simp only [charLiteral]
  repeat' split
  all_goals simp [skip, emit]

theorem stringLiteral_tokens_length (lx : Lexer) (rest : List Char) :
    (lx.stringLiteral rest).tokens.length = 1 := by
  simp only [stringLiteral]
  split <;> rfl

theorem template_tokens_length_le (lx : Lexer) (rest : List Char) :
    (lx.template rest).tokens.length ≤ 3 := by
  have text := lx.templateText_tokens_length_le rest false
  simp only [template, nestedTemplate]
  repeat' split
  all_goals simp
  omega

theorem symbol_tokens_length_le (lx : Lexer) (kind : Kind) (rest : List Char) :
    (lx.symbol kind rest).tokens.length ≤ 2 := by
  simp only [symbol]
  split
  · simp
  · exact lx.templateText_tokens_length_le rest true
  · simp
  · simp [emit]

/-- One look at the text gives at most three tokens. -/
theorem scan_tokens_length_le (lx : Lexer) (first : Char) (rest : List Char) :
    (lx.scan first rest).tokens.length ≤ 3 := by
  unfold scan
  repeat' split
  · simp [skip]
  · simp [word, emit]
  · simp [radixInteger_tokens_length]
  · simp [decimalNumber_tokens_length]
  · simp [decimalNumber_tokens_length]
  · simp [skip]
  · simp [blockComment_tokens]
  · exact Nat.le_trans (lx.charLiteral_tokens_length_le _) (by decide)
  · simp [stringLiteral_tokens_length]
  · exact lx.template_tokens_length_le _
  · exact Nat.le_trans (lx.symbol_tokens_length_le _ _) (by decide)
  · simp [skip]

theorem remaining_after_lt {lx : Lexer} {c : Char} {rest : List Char} (h : lx.cursor.ahead = c :: rest) :
    (lx.after (lx.scan c rest)).remaining < lx.remaining := by
  have shorter := ahead_after_lt h (lx.scan c rest)
  have few := lx.scan_tokens_length_le c rest
  have pending : (lx.after (lx.scan c rest)).pending = (lx.scan c rest).tokens.tail := rfl
  simp only [remaining, pending, List.length_tail]
  split <;> omega

theorem read_remaining_lt (lx : Lexer) (errors : List LexError)
    (h : (lx.read errors).1.token.kind ≠ .eof) : (lx.read errors).2.remaining < lx.remaining := by
  fun_induction read lx errors with
  | case1 lx errors ahead lexed rest atEnd =>
    simp only [Lexer.atEnd] at atEnd
    split at atEnd <;> cases atEnd
    · simp_all [remaining]
    · simp [Token.bare] at h
  | case2 lx errors c rest ahead s tokens ih =>
    exact Nat.lt_trans (ih h) (remaining_after_lt ahead)
  | case3 lx errors c rest ahead s token more tokens =>
    exact remaining_after_lt ahead

/-- Every token but the end brings the end nearer. -/
theorem next_remaining_lt (lx : Lexer) (h : lx.next.1.token.kind ≠ .eof) :
    lx.next.2.remaining < lx.remaining := by
  unfold next at h ⊢
  split
  · simp_all [remaining]
  · simp_all only
    exact lx.read_remaining_lt [] h

end Lexer

/-! ### The stream of tokens -/

/-- The tokens of a text up to its end, and the end. -/
structure TokenStream where
  tokens : List Lexed
  eof : Lexed
  tokens_kind : ∀ lexed ∈ tokens, lexed.token.kind ≠ .eof
  eof_kind : eof.token.kind = .eof

/-- Everything that is still to be read. -/
def Lexer.stream (lx : Lexer) : TokenStream :=
  let step := lx.next
  if h : step.1.token.kind = .eof then ⟨[], step.1, List.forall_mem_nil _, h⟩
  else
    let rest := step.2.stream
    { rest with
      tokens := step.1 :: rest.tokens
      tokens_kind := List.forall_mem_cons.mpr ⟨h, rest.tokens_kind⟩ }
termination_by lx.remaining
decreasing_by exact lx.next_remaining_lt h

/-- The tokens of a source. -/
def TokenStream.ofSource (source : Source) : TokenStream := (Lexer.start source).stream

end BraceLang
