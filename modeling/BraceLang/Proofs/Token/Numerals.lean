import BraceLang.Proofs.Token.Faithful

/-! Integers. A number is what starts with a digit and is no text of a template; one without fraction or exponent
    is an integer, with the value that its digits have, or is no number and told to be none (`Lexed.Exact`).

    Main statement: the numbers that the lexer of a source gives are exact (`Lexer.start_calls_exact`). -/

namespace BraceLang

open Text (byteLength)

/-- The kinds of numbers, those that cannot be read included. -/
def Kind.isNumber (k : Kind) : Bool := k == intLit || k == floatLit || k == invalid

def startsWithDigit (cs : List Char) : Bool := cs.head?.any (digitRank · < 10)

/-- Decimal digits with the mark of a fraction or exponent behind them. -/
def Fractional (cs : List Char) : Prop :=
  ∃ ds mark more, ds ≠ [] ∧ (∀ c ∈ ds, digitRank c < 10) ∧ mark ∈ ['.', 'e', 'E'] ∧ cs = ds ++ mark :: more

/-- The token of a call is no number, and that is the last error of the call and the only one about a number. -/
structure Lexed.Rejected (x : Lexed) : Prop where
  token : x.token = .bare .invalid x.token.range
  errors : ∃ earlier cause, x.errors = earlier ++ [⟨cause, x.token.range⟩] ∧ cause.severity = .error ∧
    cause.code.text = "E0004" ∧ ∀ e ∈ earlier, e.Passed x.token.range.start.pos

/-- What a call gives for an integer that is written with a value, or without one. -/
inductive Lexed.Exact (x : Lexed) : Option Nat → Prop where
  | int {value : Nat} (small : value < 2 ^ 64) (token : x.token = ⟨.intLit, x.token.range, some (.int value)⟩)
    (passed : ∀ e ∈ x.errors, e.Passed x.token.range.start.pos) : Exact x (some value)
  | tooLarge {value : Nat} (large : 2 ^ 64 ≤ value) (rejected : x.Rejected) : Exact x (some value)
  | malformed (rejected : x.Rejected) : Exact x none

/-- The token of a call stands between two pieces of a source. Outside template text it is a number if it starts
    with a digit, a number without fraction or exponent is written as an integer and is exact, and nothing but a
    number is told to be malformed. -/
structure Lexed.ExactIn (source : Source) (x : Lexed) (behind cs rest : List Char) : Prop where
  chars : source.chars = behind ++ (cs ++ rest)
  range : x.token.range = source.range (byteLength behind) (byteLength behind + byteLength cs)
  number : x.token.kind ≠ .templateText → x.token.kind.isNumber = startsWithDigit cs
  exact : x.token.kind.isNumber = true → Fractional cs ∨ ∃ value, Numeral rest cs value ∧ x.Exact value
  told : ∀ e ∈ x.errors, e.cause.code.text = "E0004" → x.token.kind = .invalid ∧ e.range = x.token.range

/-! ### First characters -/

theorem startsWithDigit_cons (c : Char) (cs : List Char) : startsWithDigit (c :: cs) = decide (digitRank c < 10) := rfl

theorem Numeral.startsWithDigit {rest cs : List Char} {value : Option Nat} (h : Numeral rest cs value) :
    startsWithDigit cs = true := by
  cases h with
  | @decimal ds nonempty run _ =>
    obtain ⟨c, cs, rfl⟩ := List.exists_cons_of_ne_nil nonempty
    exact decide_eq_true (run.all c List.mem_cons_self)
  | based | malformed => rfl

theorem Kind.startsWithDigit_of_isFixed : ∀ k : Kind, k.isFixed = true → startsWithDigit k.text.toList = false := by
  intro k
  cases k <;> decide

theorem Kind.isNumber_of_isFixed : ∀ k : Kind, k.isFixed = true → k.isNumber = false := by
  intro k
  cases k <;> decide

theorem startsWithDigit_of_isName {text : String} (h : isName text = true) : startsWithDigit text.toList = false := by
  rw [isName, Bool.and_eq_true] at h
  have word := h.1
  unfold isWord at word
  split at word
  · cases word
  · rename_i first rest hfirst
    rw [Bool.and_eq_true] at word
    rw [hfirst, startsWithDigit_cons, decide_eq_false_iff_not]
    intro digit
    rw [isWordStart_of_isDigit ((isDigit_iff _).mpr digit)] at word
    cases word.1

namespace Written
variable {rest cs : List Char} {range : Range} {l : Lexeme} {own : List LexError}

/-- A token is a number if its first character is a digit. -/
theorem isNumber_eq (h : Written rest range cs l own) (outside : l.kind ≠ .templateText) :
    l.kind.isNumber = startsWithDigit cs := by
  cases h with
  | @fixed k fixed => exact (Kind.isNumber_of_isFixed k fixed).trans (Kind.startsWithDigit_of_isFixed k fixed).symm
  | name named => exact (startsWithDigit_of_isName named).symm
  | bool value => cases value <;> decide
  | int numeral | tooLarge numeral | malformed numeral => exact numeral.startsWithDigit.symm
  | @float ds _ _ nonempty digits =>
    obtain ⟨c, ds, rfl⟩ := List.exists_cons_of_ne_nil nonempty
    exact (decide_eq_true (digits c List.mem_cons_self)).symm
  | char | escape | string | openString | templateOpen | templateClose | cut | eof => rfl
  | templateText => exact absurd rfl outside

/-- What is wrong with a number is told at the number. -/
theorem invalid_of_code (h : Written rest range cs l own) {e : LexError} (he : e ∈ own)
    (code : e.cause.code = .malformedNumber) : l.kind = .invalid ∧ e.range = range := by
  cases h with
  | fixed | name | bool | int | float | char | string | eof => cases he
  | tooLarge | malformed =>
    obtain rfl := List.mem_singleton.mp he
    exact ⟨rfl, rfl⟩
  | openString =>
    obtain rfl := List.mem_singleton.mp he
    cases code
  | escape _ free | templateOpen free | templateText _ free | templateClose free | cut _ free =>
    exact absurd code (free e he)

end Written

/-! ### Calls -/

theorem Code.eq_malformedNumber_of_text : ∀ code : Code, code.text = "E0004" → code = .malformedNumber := by
  intro code
  cases code <;> decide

theorem Token.eq_of_lexeme {t : Token} {kind : Kind} {payload : Option Payload} (h : t.lexeme = ⟨kind, payload⟩) :
    t = ⟨kind, t.range, payload⟩ := by
  obtain ⟨rfl, rfl⟩ := Lexeme.mk.inj h
  rfl

namespace Lexed.WrittenIn
variable {source : Source} {x : Lexed} {behind cs rest : List Char} {own : List LexError}

/-- The token of a call has nothing wrong with it. -/
theorem passed_of_own_nil (h : x.WrittenIn source behind cs rest []) :
    ∀ e ∈ x.errors, e.Passed x.token.range.start.pos := by
  obtain ⟨earlier, herrors, passed⟩ := h.errors
  rw [herrors, List.append_nil, h.range_pos.1]
  exact passed

theorem rejected {cause : LexCause} (h : x.WrittenIn source behind cs rest [⟨cause, x.token.range⟩])
    (lexeme : x.token.lexeme = .bare .invalid) (severity : cause.severity = .error)
    (code : cause.code.text = "E0004") : x.Rejected := by
  obtain ⟨earlier, herrors, passed⟩ := h.errors
  rw [← h.range_pos.1] at passed
  exact ⟨Token.eq_of_lexeme lexeme, earlier, cause, herrors, severity, code, passed⟩

theorem exact (h : x.WrittenIn source behind cs rest own) (number : x.token.kind.isNumber = true) :
    Fractional cs ∨ ∃ value, Numeral rest cs value ∧ x.Exact value := by
  have written := h.written
  have kind : x.token.lexeme.kind.isNumber = true := number
  generalize lexeme : x.token.lexeme = l at written kind
  cases written with
  | @fixed k fixed =>
    have other : (Lexeme.bare k).kind.isNumber = false := Kind.isNumber_of_isFixed k fixed
    rw [other] at kind
    cases kind
  | int numeral small => exact .inr ⟨_, numeral, .int small (Token.eq_of_lexeme lexeme) h.passed_of_own_nil⟩
  | tooLarge numeral large => exact .inr ⟨_, numeral, .tooLarge large (h.rejected lexeme rfl rfl)⟩
  | malformed numeral => exact .inr ⟨_, numeral, .malformed (h.rejected lexeme rfl rfl)⟩
  | float nonempty digits mark => exact .inl ⟨_, _, _, nonempty, digits, mark, rfl⟩
  | _ => cases kind

theorem invalid_of_code (h : x.WrittenIn source behind cs rest own) {e : LexError} (he : e ∈ x.errors)
    (code : e.cause.code = .malformedNumber) : x.token.kind = .invalid ∧ e.range = x.token.range := by
  obtain ⟨earlier, herrors, passed⟩ := h.errors
  rw [herrors, List.mem_append] at he
  rcases he with before | own
  · exact absurd code (passed e before).code
  · exact h.written.invalid_of_code own code

end Lexed.WrittenIn

/-- Whatever call of the lexer of a source: if its token is an integer, it is exact. -/
theorem Lexer.start_calls_exact (source : Source) (n : Nat) :
    ∃ behind cs rest, ((Lexer.start source).call n).ExactIn source behind cs rest := by
  obtain ⟨behind, cs, rest, own, h⟩ := call_isWritten source n
  refine ⟨behind, cs, rest, h.chars, h.range, h.written.isNumber_eq, h.exact, fun e he text => ?_⟩
  exact h.invalid_of_code he (Code.eq_malformedNumber_of_text _ text)

end BraceLang
