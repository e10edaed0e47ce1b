import BraceLang.Proofs.Source.Places

/-! The places that tokens and lexical errors name. A token stands on the piece of text it was read from,
    so its range is that of a piece (`Lays.pieces`). An error marks a piece of the text at the cursor: one
    lemma for each scanner says which (`Lexer.scan_errors_marked`), and the stream follows look by look
    (`Lexer.stream_errors_marked`). -/

namespace BraceLang

open Text (byteLength)

/-- The characters at a place in the text are a piece of it. -/
theorem Spot.On.range_piece {source : Source} {s : Setting} {pos : Nat} {cs rest : List Char}
    (on : Spot.On ⟨s, pos, cs ++ rest⟩ source) : (source.range pos (pos + byteLength cs)).Piece source := by
  obtain ⟨behind, hchars, hpos⟩ := on
  dsimp only at hchars hpos
  subst hpos
  exact ⟨_, _, _, hchars, rfl⟩

/-- The tokens laid out on a text stand on pieces of it. -/
theorem Lays.pieces {source : Source} {logged : List LexError} {a b : Spot} {ts : List Token}
    (h : Lays source logged a ts b) (on : a.On source) : ∀ t ∈ ts, t.range.Piece source := by
  induction h with
  | nil => exact List.forall_mem_nil _
  | gap _ _ ih => exact ih on.step
  | token _ hrange _ ih =>
    rw [List.forall_mem_cons, hrange]
    exact ⟨on.range_piece, ih on.step⟩
  | @cut braces pos _ _ _ _ hrange _ _ ih =>
    have on' : Spot.On ⟨.hole braces, pos, [] ++ []⟩ source := on
    rw [List.forall_mem_cons, hrange]
    exact ⟨on'.range_piece, ih on⟩

namespace Lexer
variable {lx : Lexer}

theorem endRange_piece (lx : Lexer) : lx.endRange.Piece lx.source := by
  have whole : lx.source.chars = lx.source.chars ++ ([] ++ []) := by
    rw [List.append_nil, List.append_nil]
  rw [endRange, lx.source.length_eq]
  exact ⟨_, _, _, whole, rfl⟩

/-! ### What a look at the text marks -/

/-- The range of a piece of the text ahead. -/
theorem rangeAt_piece (as : List Char) {bs : List Char} {offset length : Nat} (on : lx.spot.On lx.source)
    (h : as ++ bs <+: lx.cursor.ahead) (hoffset : offset = byteLength as) (hlength : length = byteLength bs) :
    (lx.rangeAt offset length).Piece lx.source := by
  obtain ⟨rest, hrest⟩ := h
  have here : Spot.On ⟨.ofHole lx.hole, lx.cursor.pos, as ++ (bs ++ rest)⟩ lx.source := by
    rw [← List.append_assoc, hrest]
    exact on
  have behind : Spot.On ⟨.ofHole lx.hole, lx.cursor.pos + byteLength as, bs ++ rest⟩ lx.source := here.step
  rw [rangeAt, hoffset, hlength]
  exact behind.range_piece

/-- Every error marks a piece of the text. -/
def Marks (lx : Lexer) (errors : List LexError) : Prop := ∀ e ∈ errors, e.range.Piece lx.source

theorem marks_nil : lx.Marks [] := List.forall_mem_nil _

theorem marks_singleton {cause : LexCause} {range : Range} (h : range.Piece lx.source) :
    lx.Marks [⟨cause, range⟩] := List.forall_mem_singleton.mpr h

theorem Marks.append {errors more : List LexError} (h : lx.Marks errors) (h' : lx.Marks more) :
    lx.Marks (errors ++ more) := List.forall_mem_append.mpr ⟨h, h'⟩

/-- An error at the characters that stand at the cursor. -/
theorem marks_ahead {cause : LexCause} {length : Nat} (cs : List Char) (on : lx.spot.On lx.source)
    (h : cs <+: lx.cursor.ahead) (hlength : length = byteLength cs) :
    lx.Marks [⟨cause, lx.rangeAt 0 length⟩] :=
  marks_singleton (rangeAt_piece [] on h rfl hlength)

theorem blockComment_errors_marked {body : List Char} (ahead : lx.cursor.ahead = '/' :: '*' :: body)
    (on : lx.spot.On lx.source) : lx.Marks (lx.blockComment body).errors := by
  unfold blockComment
  split
  · exact marks_nil
  · exact marks_ahead ['/', '*'] on ⟨body, ahead.symm⟩ rfl

theorem integer_errors_marked {chars : List Char} (value : Nat) (h : chars <+: lx.cursor.ahead)
    (on : lx.spot.On lx.source) : lx.Marks (lx.integer chars value).errors := by
  simp only [integer]
  split
  · exact marks_nil
  · exact marks_ahead _ on h rfl

theorem radixInteger_errors_marked {letter : Char} {rest : List Char} (radix : Radix)
    (ahead : lx.cursor.ahead = '0' :: letter :: rest) (on : lx.spot.On lx.source) :
    lx.Marks (lx.radixInteger radix letter rest).errors := by
  have within {cs : List Char} (h : cs <+: rest) : '0' :: letter :: cs <+: lx.cursor.ahead := by
    rw [ahead]
    exact (List.prefix_cons_inj _).mpr ((List.prefix_cons_inj _).mpr h)
  simp only [radixInteger]
  split
  · exact marks_ahead _ on (within (List.takeWhile_prefix _)) rfl
  · exact integer_errors_marked _ (within (List.takeWhile_prefix _)) on

theorem decimalNumber_errors_marked {first : Char} {rest : List Char}
    (ahead : lx.cursor.ahead = first :: rest) (on : lx.spot.On lx.source) :
    lx.Marks (lx.decimalNumber first rest).errors := by
  simp only [decimalNumber]
  split
  · exact marks_nil
  · refine integer_errors_marked _ ?_ on
    rw [ahead]
    exact (List.prefix_cons_inj _).mpr (List.takeWhile_prefix _)

/-- An unknown escape is marked from its backslash on. -/
theorem charValue_errors_marked {first : Char} {rest : List Char}
    (ahead : lx.cursor.ahead = '\x27' :: first :: rest) (on : lx.spot.On lx.source) :
    lx.Marks (lx.charValue first rest).2.2 := by
  unfold charValue
  split
  · dsimp only
    split
    · exact marks_nil
    · refine marks_singleton (rangeAt_piece ['\x27'] on ?_ rfl rfl)
      rw [ahead]
      exact (List.prefix_cons_inj _).mpr ((List.prefix_cons_inj _).mpr (List.take_prefix _ _))
  · exact marks_nil

theorem charLiteral_errors_marked {rest : List Char} (ahead : lx.cursor.ahead = '\x27' :: rest)
    (on : lx.spot.On lx.source) : lx.Marks (lx.charLiteral rest).errors := by
  have quote : ['\x27'] <+: lx.cursor.ahead := ⟨rest, ahead.symm⟩
  unfold charLiteral
  split
  · exact marks_ahead _ on quote rfl
  · exact marks_ahead _ on quote rfl
  · rename_i more
    exact marks_ahead ['\x27', '\x27'] on ⟨more, ahead.symm⟩ rfl
  · rename_i c body _ _
    have value := charValue_errors_marked ahead on
    generalize lx.charValue c body = found at value ⊢
    obtain ⟨said, length, errors⟩ := found
    dsimp only at value ⊢
    split
    · exact value
    · refine value.append (marks_ahead ('\x27' :: (c :: body).take length) on ?_ (Nat.add_comm _ 1))
      rw [ahead]
      exact (List.prefix_cons_inj _).mpr (List.take_prefix _ _)

theorem stringLiteral_errors_marked {rest : List Char} (ahead : lx.cursor.ahead = '"' :: rest)
    (on : lx.spot.On lx.source) : lx.Marks (lx.stringLiteral rest).errors := by
  unfold stringLiteral
  split
  · exact marks_nil
  · exact marks_ahead ['"'] on ⟨rest, ahead.symm⟩ rfl

/-- A template that the text ends in is marked behind its first character. -/
theorem templateText_errors_marked {first : Char} {rest : List Char} (resumed : Bool)
    (ahead : lx.cursor.ahead = first :: rest) (hfirst : first.utf8Size = 1) (on : lx.spot.On lx.source) :
    lx.Marks (lx.templateText rest resumed).errors := by
  have text (n : Nat) : [first] ++ rest.take n <+: lx.cursor.ahead := by
    rw [ahead]
    exact (List.prefix_cons_inj _).mpr (List.take_prefix _ _)
  unfold templateText
  generalize segmentLength rest = found
  obtain ⟨n, stop⟩ := found
  cases stop with
  | backtick => exact marks_nil
  | hole => exact marks_nil
  | input => exact marks_singleton (rangeAt_piece [first] on (text n) hfirst.symm rfl)

theorem template_errors_marked {rest : List Char} (ahead : lx.cursor.ahead = '\x60' :: rest)
    (on : lx.spot.On lx.source) : lx.Marks (lx.template rest).errors := by
  have mark : lx.Marks [⟨.nestedTemplate, lx.rangeAt 0 1⟩] :=
    marks_ahead ['\x60'] on ⟨rest, ahead.symm⟩ rfl
  unfold template
  split
  · unfold nestedTemplate
    split
    · exact mark
    · exact mark
  · exact templateText_errors_marked false ahead rfl on

theorem symbol_errors_marked {kind : Kind} {first : Char} {rest : List Char}
    (ahead : lx.cursor.ahead = first :: rest) (hk : Kind.ofSymbol? (first :: rest) = some kind)
    (on : lx.spot.On lx.source) : lx.Marks (lx.symbol kind rest).errors := by
  simp only [symbol]
  split
  · exact marks_nil
  · have spelled := List.prefix_iff_eq_take.mp (Kind.prefix_of_ofSymbol? hk)
    obtain rfl : first = '\x7d' := (List.cons.inj spelled).1.symm
    exact templateText_errors_marked true ahead rfl on
  · exact marks_nil
  · exact marks_nil

/-- What one look at the text finds wrong is marked in the text. -/
theorem scan_errors_marked {first : Char} {rest : List Char} (ahead : lx.cursor.ahead = first :: rest)
    (on : lx.spot.On lx.source) : lx.Marks (lx.scan first rest).errors := by
  unfold scan
  repeat' split
  · exact marks_nil
  · exact marks_nil
  · exact radixInteger_errors_marked _ ahead on
  · exact decimalNumber_errors_marked ahead on
  · exact decimalNumber_errors_marked ahead on
  · exact marks_nil
  · exact blockComment_errors_marked ahead on
  · exact charLiteral_errors_marked ahead on
  · exact stringLiteral_errors_marked ahead on
  · exact template_errors_marked ahead on
  · exact symbol_errors_marked ahead ‹_› on
  · exact marks_ahead [first] on ⟨rest, ahead.symm⟩ rfl

/-! ### The whole text -/

theorem stream_errors_marked (lx : Lexer) (pending : lx.pending = []) (on : lx.spot.On lx.source) :
    lx.Marks lx.stream.errors := by
  cases ahead : lx.cursor.ahead with
  | nil =>
    cases hole : lx.hole with
    | none =>
      rw [(stream_end pending ahead hole).2]
      exact marks_nil
    | some braces =>
      rw [(stream_closing pending ahead hole).2]
      exact marks_singleton lx.endRange_piece
  | cons first rest =>
    have hstep : Spot.On ⟨.ofHole lx.hole, lx.cursor.pos, _⟩ lx.source := lx.spot_eq (lx.scan first rest) ▸ on
    rw [(stream_scan pending ahead).errors]
    exact (scan_errors_marked ahead on).append
      (stream_errors_marked (lx.after (lx.scan first rest)).settled rfl hstep.step)
termination_by lx.cursor.ahead.length
decreasing_by exact ahead_after_lt ahead _

end Lexer

end BraceLang
