import BraceLang.Proofs.Token.Stream

/-! Keywords in a text. A keyword is read from a word, so its range is not empty, and no two keywords of a
    source start at the same place. -/

namespace BraceLang

/-- If the token is a keyword, its range is not empty. -/
def Token.Wide (t : Token) : Prop := t.kind.roles.keyword = true → t.range.start.pos < t.range.stop.pos

theorem Token.wide_of_kind {t : Token} (h : t.kind.roles.keyword = false) : t.Wide := by
  intro hkeyword
  rw [h] at hkeyword
  cases hkeyword

namespace Lexer
variable (lx : Lexer)

theorem integer_wide (chars : List Char) (value : Nat) : ∀ t ∈ (lx.integer chars value).tokens, t.Wide := by
  unfold integer
  split <;> exact List.forall_mem_singleton.mpr (Token.wide_of_kind rfl)

theorem radixInteger_wide (radix : Radix) (letter : Char) (rest : List Char) :
    ∀ t ∈ (lx.radixInteger radix letter rest).tokens, t.Wide := by
  simp only [radixInteger]
  split
  · exact List.forall_mem_singleton.mpr (Token.wide_of_kind rfl)
  · exact lx.integer_wide _ _

theorem decimalNumber_wide (first : Char) (rest : List Char) :
    ∀ t ∈ (lx.decimalNumber first rest).tokens, t.Wide := by
  simp only [decimalNumber]
  split
  · exact List.forall_mem_singleton.mpr (Token.wide_of_kind rfl)
  · exact lx.integer_wide _ _

theorem charLiteral_wide (rest : List Char) : ∀ t ∈ (lx.charLiteral rest).tokens, t.Wide := by
  unfold charLiteral
  repeat' split
  all_goals first
    | exact List.forall_mem_nil _
    | exact List.forall_mem_singleton.mpr (Token.wide_of_kind rfl)

theorem stringLiteral_wide (rest : List Char) : ∀ t ∈ (lx.stringLiteral rest).tokens, t.Wide := by
  unfold stringLiteral
  split <;> exact List.forall_mem_singleton.mpr (Token.wide_of_kind rfl)

theorem templateText_wide (rest : List Char) (resumed : Bool) :
    ∀ t ∈ (lx.templateText rest resumed).tokens, t.Wide := by
  have text (cs : List Char) : (lx.segmentToken cs).Wide := Token.wide_of_kind rfl
  have close (range : Range) : (Token.bare .templateClose range).Wide := Token.wide_of_kind rfl
  simp only [templateText]
  repeat' split
  all_goals simp [text, close]

theorem template_wide (rest : List Char) : ∀ t ∈ (lx.template rest).tokens, t.Wide := by
  have text (cs : List Char) : (lx.segmentToken cs).Wide := Token.wide_of_kind rfl
  have opening (range : Range) : (Token.bare .templateOpen range).Wide := Token.wide_of_kind rfl
  have close (range : Range) : (Token.bare .templateClose range).Wide := Token.wide_of_kind rfl
  unfold template
  split
  · unfold nestedTemplate
    split <;> simp [opening, text, close]
  · exact List.forall_mem_cons.mpr ⟨opening _, lx.templateText_wide rest false⟩

theorem symbol_wide {k : Kind} (rest : List Char) (hk : k.roles.keyword = false) :
    ∀ t ∈ (lx.symbol k rest).tokens, t.Wide := by
  simp only [symbol]
  split
  · exact List.forall_mem_singleton.mpr (Token.wide_of_kind rfl)
  · exact lx.templateText_wide rest true
  · exact List.forall_mem_singleton.mpr (Token.wide_of_kind rfl)
  · exact List.forall_mem_singleton.mpr (Token.wide_of_kind hk)

/-- The range of a word holds at least its first character. -/
theorem word_wide {first : Char} {rest : List Char} (ahead : lx.cursor.ahead = first :: rest)
    (on : lx.spot.On lx.source) : ∀ t ∈ (lx.word first rest).tokens, t.Wide := by
  rw [spot, ahead_takeWhile ahead isWordPart] at on
  have wide {t : Token} (hrange : t.range = lx.rangeOf (first :: rest.takeWhile isWordPart)) : t.Wide := by
    intro _
    obtain ⟨-, hstop⟩ := Token.stands_of_range on hrange
    have hstart : t.range.start.pos ≤ lx.cursor.pos := by
      rw [hrange]
      exact Nat.min_le_left _ _
    have hfirst := first.utf8Size_pos
    rw [Text.byteLength_cons] at hstop
    omega
  simp only [word]
  split <;> exact List.forall_mem_singleton.mpr (wide rfl)

theorem scan_wide {first : Char} {rest : List Char} (ahead : lx.cursor.ahead = first :: rest)
    (on : lx.spot.On lx.source) : ∀ t ∈ (lx.scan first rest).tokens, t.Wide := by
  have symbols : ∀ k ∈ Kind.symbols, k.roles.keyword = false := by decide
  unfold scan
  repeat' split
  · exact List.forall_mem_nil _
  · exact lx.word_wide ahead on
  · exact lx.radixInteger_wide _ _ _
  · exact lx.decimalNumber_wide _ _
  · exact lx.decimalNumber_wide _ _
  · exact List.forall_mem_nil _
  · rw [blockComment_tokens]
    exact List.forall_mem_nil _
  · exact lx.charLiteral_wide _
  · exact lx.stringLiteral_wide _
  · exact lx.template_wide _
  · rename_i hk
    exact lx.symbol_wide _ (symbols _ (List.mem_of_find?_eq_some hk))
  · exact List.forall_mem_nil _

theorem stream_wide (lx : Lexer) (pending : lx.pending = []) (on : lx.spot.On lx.source) :
    ∀ t ∈ lx.stream.toList, t.Wide := by
  cases ahead : lx.cursor.ahead with
  | nil =>
    cases hole : lx.hole with
    | none =>
      rw [(stream_end pending ahead hole).1]
      exact List.forall_mem_nil _
    | some braces =>
      rw [(stream_closing pending ahead hole).1]
      exact List.forall_mem_singleton.mpr (Token.wide_of_kind rfl)
  | cons first rest =>
    have hstep : Spot.On ⟨.ofHole lx.hole, lx.cursor.pos, _⟩ lx.source := lx.spot_eq (lx.scan first rest) ▸ on
    rw [(stream_scan pending ahead).tokens]
    exact List.forall_mem_append.mpr
      ⟨lx.scan_wide ahead on, stream_wide (lx.after (lx.scan first rest)).settled rfl hstep.step⟩
termination_by lx.cursor.ahead.length
decreasing_by exact ahead_after_lt ahead _

end Lexer

namespace TokenStream

/-- Of two keywords the later one starts behind the earlier one. -/
theorem ofSource_keywords_apart (source : Source) :
    ((ofSource source).toList.filter (·.kind.roles.keyword)).Pairwise fun t u =>
      t.range.start.pos < u.range.start.pos := by
  have hwide := (Lexer.start source).stream_wide rfl ⟨[], rfl, rfl⟩
  rw [List.pairwise_filter]
  refine (ofSource_ordered source).2.imp_of_mem fun ht _ hle hkeyword _ => ?_
  exact Nat.lt_of_lt_of_le (hwide _ ht hkeyword) hle

end TokenStream

end BraceLang
