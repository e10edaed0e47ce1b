import BraceLang.Proofs.Token.Written

/-! Tokens and the text of their ranges. By the kind of a token its text is the text of the kind, what the token
    says, or that between quotes (`Lexed.Faithful`).

    Main statement: every token that the lexer of a source gives is faithful to the text of its range
    (`Lexer.start_calls_faithful`). -/

namespace BraceLang

open Text (byteLength)

/-- A token says what its text does. The text that a literal or template is cut off in is the end of the source. -/
structure Lexed.Faithful (source : Source) (x : Lexed) (text : String) : Prop where
  fixed : x.token.kind.text ≠ "" → x.token.kind ≠ .templateOpen → x.token.kind ≠ .templateClose →
    text = x.token.kind.text
  templateOpen : x.token.kind = .templateOpen → text = "`"
  templateClose : x.token.kind = .templateClose →
    text = "`" ∨ text = "" ∧ x.token.range.stop.pos = source.length
  name : x.token.kind = .name → x.token.payload = some (.text text) ∧ Kind.ofWord? text = none
  templateText : x.token.kind = .templateText → x.token.payload = some (.text text)
  string : x.token.kind = .stringLit → ∃ value, x.token.payload = some (.text value) ∧
    (text = "\"" ++ value ++ "\"" ∨ text = "\"" ++ value ∧ x.token.range.stop.pos = source.length ∧
      ∃ e ∈ x.errors, e.cause.code.text = "E0002")
  bool : x.token.kind = .boolLit → ∃ value, x.token.payload = some (.bool value) ∧
    text = if value then "true" else "false"
  char : x.token.kind = .charLit → ∃ value, x.token.payload = some (.char value) ∧
    (text = String.ofList ['\x27', value, '\x27'] ∨
      ∃ cs, Escape.Spells cs value ∧ text = "'\\" ++ String.ofList cs ++ "'")

/-! ### What a written token says, by its kind -/

namespace Written
variable {rest cs : List Char} {range : Range} {l : Lexeme} {own : List LexError}

theorem eq_of_fixed (h : Written rest range cs l own) (fixed : l.kind.isFixed = true) : cs = l.kind.text.toList := by
  cases h with
  | fixed => rfl
  | _ => cases fixed

theorem eq_of_templateOpen (h : Written rest range cs l own) (kind : l.kind = .templateOpen) : cs = ['\x60'] := by
  cases h with
  | fixed fixed => cases kind; cases fixed
  | templateOpen => rfl
  | _ => cases kind

theorem eq_of_templateClose (h : Written rest range cs l own) (kind : l.kind = .templateClose) :
    cs = ['\x60'] ∨ cs = [] ∧ rest = [] := by
  cases h with
  | fixed fixed => cases kind; cases fixed
  | templateClose => exact .inl rfl
  | cut stop => exact .inr ⟨rfl, stop⟩
  | _ => cases kind

theorem isName_of_name (h : Written rest range cs l own) (kind : l.kind = .name) :
    l.payload = some (.text (String.ofList cs)) ∧ isName (String.ofList cs) = true := by
  cases h with
  | fixed fixed => cases kind; cases fixed
  | name named =>
    rw [String.ofList_toList]
    exact ⟨rfl, named⟩
  | _ => cases kind

theorem payload_of_templateText (h : Written rest range cs l own) (kind : l.kind = .templateText) :
    l.payload = some (.text (String.ofList cs)) := by
  cases h with
  | fixed fixed => cases kind; cases fixed
  | templateText => rfl
  | _ => cases kind

theorem payload_of_stringLit (h : Written rest range cs l own) (kind : l.kind = .stringLit) :
    ∃ text, l.payload = some (.text (String.ofList text)) ∧ (cs = '"' :: (text ++ ['"']) ∨
      cs = '"' :: text ∧ rest = [] ∧ ∃ opening, own = [⟨.unterminated .stringLiteral, opening⟩]) := by
  cases h with
  | fixed fixed => cases kind; cases fixed
  | string text => exact ⟨text, rfl, .inl rfl⟩
  | openString text stop opening => exact ⟨text, rfl, .inr ⟨rfl, stop, opening, rfl⟩⟩
  | _ => cases kind

theorem payload_of_boolLit (h : Written rest range cs l own) (kind : l.kind = .boolLit) :
    ∃ value, l.payload = some (.bool value) ∧ cs = (Lexeme.bool value).chars := by
  cases h with
  | fixed fixed => cases kind; cases fixed
  | bool value => exact ⟨value, rfl, rfl⟩
  | _ => cases kind

theorem payload_of_charLit (h : Written rest range cs l own) (kind : l.kind = .charLit) :
    ∃ value, l.payload = some (.char value) ∧ (cs = ['\x27', value, '\x27'] ∨
      ∃ ds, Escape.Spells ds value ∧ cs = '\x27' :: '\\' :: (ds ++ ['\x27'])) := by
  cases h with
  | fixed fixed => cases kind; cases fixed
  | char => exact ⟨_, rfl, .inl rfl⟩
  | escape spells => exact ⟨_, rfl, .inr ⟨_, spells, rfl⟩⟩
  | _ => cases kind

end Written

/-! ### The text of a range -/

namespace Lexed.WrittenIn
variable {source : Source} {x : Lexed} {behind cs rest : List Char} {own : List LexError}

theorem range_pos (h : x.WrittenIn source behind cs rest own) :
    x.token.range.start.pos = byteLength behind ∧
      x.token.range.stop.pos = byteLength behind + byteLength cs := by
  have inside : byteLength behind + byteLength cs ≤ source.length := by
    rw [source.length_eq, h.chars, Text.byteLength_append, Text.byteLength_append]
    omega
  rw [h.range]
  exact ⟨Source.range_start_pos (Nat.le_of_add_right_le inside),
    Source.range_stop_pos (Nat.le_add_right _ _) inside⟩

/-- The text of the range of a token is what the token is written as. -/
theorem slice (h : x.WrittenIn source behind cs rest own) :
    source.slice? x.token.range.start.pos x.token.range.stop.pos = some (String.ofList cs) := by
  obtain ⟨start, stop⟩ := h.range_pos
  rw [Source.slice?, h.chars, start, stop, Text.slice?_byteLength]
  rfl

theorem stop_eq_length (h : x.WrittenIn source behind cs rest own) (last : rest = []) :
    x.token.range.stop.pos = source.length := by
  rw [h.range_pos.2, source.length_eq, h.chars, last, List.append_nil, Text.byteLength_append]

theorem faithful (h : x.WrittenIn source behind cs rest own) : x.Faithful source (String.ofList cs) where
  fixed text opening closing := by
    have fixed : x.token.kind.isFixed = true := by
      simp only [Kind.isFixed, Bool.and_eq_true, bne_iff_ne]
      exact ⟨⟨text, opening⟩, closing⟩
    rw [h.written.eq_of_fixed fixed, String.ofList_toList]
    rfl
  templateOpen kind := by rw [h.written.eq_of_templateOpen kind]
  templateClose kind := by
    rcases h.written.eq_of_templateClose kind with rfl | ⟨rfl, last⟩
    · exact .inl rfl
    · exact .inr ⟨rfl, h.stop_eq_length last⟩
  name kind := by
    obtain ⟨payload, named⟩ := h.written.isName_of_name kind
    rw [isName, Bool.and_eq_true, Option.isNone_iff_eq_none] at named
    exact ⟨payload, named.2⟩
  templateText kind := h.written.payload_of_templateText kind
  string kind := by
    obtain ⟨text, payload, closed | ⟨unclosed, last, opening, hown⟩⟩ := h.written.payload_of_stringLit kind
    · refine ⟨_, payload, .inl ?_⟩
      rw [closed]
      simp [← String.toList_inj]
    · obtain ⟨earlier, herrors, -⟩ := h.errors
      refine ⟨_, payload, .inr ⟨?_, h.stop_eq_length last, ⟨.unterminated .stringLiteral, opening⟩, ?_, rfl⟩⟩
      · rw [unclosed]
        simp
      · rw [herrors, hown]
        exact List.mem_append_right _ (List.mem_singleton_self _)
  bool kind := by
    obtain ⟨value, payload, rfl⟩ := h.written.payload_of_boolLit kind
    refine ⟨value, payload, ?_⟩
    cases value <;> rfl
  char kind := by
    obtain ⟨value, payload, rfl | ⟨ds, spells, rfl⟩⟩ := h.written.payload_of_charLit kind
    · exact ⟨value, payload, .inl rfl⟩
    · refine ⟨value, payload, .inr ⟨ds, spells, ?_⟩⟩
      simp [← String.toList_inj]

end Lexed.WrittenIn

end BraceLang
