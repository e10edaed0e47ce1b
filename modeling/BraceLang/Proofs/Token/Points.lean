import BraceLang.Proofs.Token.Decimals

/-! Points before digits. Where the lexer stands between a point and a digit, a token ended that is made of points, or
    a character literal was dropped that nothing closes: no other look at the text ends in a point with a digit
    ahead.

    Main statement: every look that ends there is one of these (`Lexer.scan_pointed`). -/

namespace BraceLang

open Text (byteLength)

/-- The kinds of tokens that end in a point. -/
def Kind.isPoints (k : Kind) : Bool := k == dot || k == questionDot || k == dotDot || k == dotDotDot

namespace Lexer
variable {lx : Lexer} {first : Char} {rest : List Char} {s : Scan}

/-! ### Where a look ends -/

/-- The lexer stands between a point and a digit. -/
structure AtPoint (lx : Lexer) : Prop where
  behind : ['.'] <+: lx.cursor.behind
  ahead : ∃ d ∈ lx.cursor.ahead.head?, digitRank d < 10

theorem taken_eq {cs more : List Char} (ahead : lx.cursor.ahead = cs ++ more) (length : s.length + 1 = cs.length) :
    lx.taken s = cs := by
  rw [taken, ahead, length, List.take_left]

theorem behind_after (lx : Lexer) (s : Scan) :
    (lx.after s).cursor.behind = (lx.taken s).reverse ++ lx.cursor.behind := List.reverseAux_eq

/-- The character that a look ends with is a point. -/
theorem AtPoint.eq_point {before : List Char} {c : Char} (h : (lx.after s).AtPoint)
    (taken : lx.taken s = before ++ [c]) : c = '.' := by
  have behind := h.behind
  rw [behind_after, taken, List.reverse_concat] at behind
  exact (List.cons_prefix_cons.mp behind).1.symm

/-- The last character of a look is no point. -/
theorem not_atPoint_of_last {before more : List Char} {c : Char} (ahead : lx.cursor.ahead = (before ++ [c]) ++ more)
    (length : s.length = before.length) (hc : c ≠ '.') : ¬(lx.after s).AtPoint := by
  intro h
  exact hc (h.eq_point (taken_eq ahead (by rw [length, List.length_append]; rfl)))

theorem not_atPoint_of_ahead_nil (h : lx.cursor.ahead = []) : ¬lx.AtPoint := by
  rintro ⟨-, d, hd, -⟩
  rw [h] at hd
  cases hd

/-- A look takes the rest of the text. -/
theorem not_atPoint_of_end (h : s.length + 1 = lx.cursor.ahead.length) : ¬(lx.after s).AtPoint :=
  not_atPoint_of_ahead_nil (List.drop_eq_nil_of_le (Nat.le_of_eq h.symm))

/-- No digit stands where a look ends. -/
theorem not_atPoint_of_stop {cs more : List Char} (ahead : lx.cursor.ahead = cs ++ more)
    (length : s.length + 1 = cs.length) (stop : ∀ c ∈ more.head?, ¬digitRank c < 10) : ¬(lx.after s).AtPoint := by
  rintro ⟨-, d, hd, digit⟩
  have after : (lx.after s).cursor.ahead = more := by
    show lx.cursor.ahead.drop (s.length + 1) = more
    rw [ahead, length, List.drop_left]
  rw [after] at hd
  exact stop d hd digit

/-- There is no point among the characters of a look. -/
theorem not_atPoint_of_all {cs more : List Char} (ahead : lx.cursor.ahead = cs ++ more)
    (length : s.length + 1 = cs.length) (pointless : '.' ∉ cs) : ¬(lx.after s).AtPoint := by
  intro h
  obtain ⟨before, c, rfl⟩ := (List.eq_nil_or_concat' cs).resolve_left (List.ne_nil_of_length_eq_add_one length.symm)
  obtain rfl := h.eq_point (taken_eq ahead length)
  exact pointless (List.mem_append_right _ (List.mem_singleton_self _))

/-- A look that ends between a point and a digit gave one token, which ends there and in points, or nothing for a
    character literal that nothing closes. -/
inductive Pointed (s : Scan) (pos : Nat) : Prop where
  | token {t : Token} (tokens : s.tokens = [t]) (kind : t.kind.isPoints = true) (stop : t.range.stop.pos = pos)
  | dropped {e : LexError} (tokens : s.tokens = []) (he : e ∈ s.errors) (cause : e.cause = .unterminated .charLiteral)
    (stop : e.range.stop.pos = pos)

/-- The range of the characters that a look takes ends where the look does. -/
theorem rangeAt_stop (on : lx.spot.On lx.source) {n : Nat} (size : n = byteLength (lx.taken s)) :
    (lx.rangeAt 0 n).stop.pos = (lx.after s).cursor.pos := by
  obtain ⟨behind, hchars, hpos⟩ := on
  have inside : lx.cursor.pos + byteLength (lx.taken s) ≤ lx.source.length := by
    have whole : byteLength (lx.taken s) ≤ byteLength lx.cursor.ahead := by
      conv => rhs; rw [← List.take_append_drop (s.length + 1) lx.cursor.ahead, Text.byteLength_append]
      exact Nat.le_add_right _ _
    rw [lx.source.length_eq, hchars, Text.byteLength_append, hpos]
    exact Nat.add_le_add_left whole _
  subst size
  exact Source.range_stop_pos (Nat.le_add_right _ _) inside

/-! ### Blanks, comments, words and numbers -/

theorem blanks_not_atPoint (ahead : lx.cursor.ahead = first :: rest) (hfirst : isBlank first = true)
    (errors : List LexError) : ¬(lx.after (lx.skip (rest.takeWhile isBlank).length errors)).AtPoint := by
  refine not_atPoint_of_all (ahead_takeWhile ahead isBlank) rfl fun point => ?_
  have blank : isBlank '.' = true := by
    rcases List.mem_cons.mp point with rfl | point
    · exact hfirst
    · exact List.mem_takeWhile_imp point
  exact absurd blank (by decide)

theorem lineComment_not_atPoint (ahead : lx.cursor.ahead = first :: rest) (errors : List LexError) :
    ¬(lx.after (lx.skip (rest.takeWhile (· != '\n')).length errors)).AtPoint := by
  have run : Run (· ≠ '\n') (rest.takeWhile (· != '\n')) (rest.dropWhile (· != '\n')) :=
    run_takeWhile (fun c => bne_iff_ne) rest
  refine not_atPoint_of_stop (ahead_takeWhile ahead _) rfl fun c hc => ?_
  rw [not_not.mp (run.longest c hc)]
  decide

theorem blockComment_not_atPoint {body : List Char} (ahead : lx.cursor.ahead = '/' :: '*' :: body) :
    ¬(lx.after (lx.blockComment body)).AtPoint := by
  unfold blockComment
  split
  · rename_i n hn
    obtain ⟨closing, more, rfl, rfl, hclosing⟩ := comment_of_blockCommentLength? hn
    obtain ⟨before, rfl⟩ := hclosing.ends_with_slash
    have split : lx.cursor.ahead = (('/' :: '*' :: before) ++ ['/']) ++ more := ahead
    refine not_atPoint_of_last split ?_ (by decide)
    simp only [skip, List.length_cons, List.length_append, List.length_nil]
    omega
  · refine not_atPoint_of_end ?_
    simp only [ahead, skip, List.length_cons]
    omega

theorem word_not_atPoint (ahead : lx.cursor.ahead = first :: rest) (hfirst : isWordStart first = true) :
    ¬(lx.after (lx.word first rest)).AtPoint := by
  refine not_atPoint_of_all (ahead_takeWhile ahead isWordPart) rfl fun point => ?_
  rcases List.mem_cons.mp point with rfl | point
  · exact absurd hfirst (by decide)
  · exact absurd (List.mem_takeWhile_imp point) (by decide)

theorem radixInteger_not_atPoint {letter : Char} {radix : Radix} (ahead : lx.cursor.ahead = '0' :: letter :: rest)
    (hradix : Radix.ofLetter? letter = some radix) : ¬(lx.after (lx.radixInteger radix letter rest)).AtPoint := by
  have hletter : '.' ≠ letter := by
    rintro rfl
    cases hradix
  have pointless {p : Char → Bool} (hp : p '.' = false) : '.' ∉ '0' :: letter :: rest.takeWhile p := by
    simp only [List.mem_cons, hletter, false_or, not_or]
    refine ⟨by decide, fun point => ?_⟩
    rw [List.mem_takeWhile_imp point] at hp
    cases hp
  simp only [radixInteger]
  split
  · exact not_atPoint_of_all (ahead_takeWhile₂ ahead _) rfl (pointless (by decide))
  · obtain ⟨t, errors, hscan, -⟩ := lx.integer_eq ('0' :: letter :: rest.takeWhile (isDigitIn radix.base))
      (positional radix.base (rest.takeWhile (isDigitIn radix.base)))
    rw [hscan]
    exact not_atPoint_of_all (ahead_takeWhile₂ ahead _) rfl (pointless (by cases radix <;> decide))

theorem Reaches.endsInDigit {t : Token} {cs more : List Char} (h : lx.Reaches t cs more) : EndsInDigit cs := by
  cases point : lx.afterPoint with
  | true => exact (h.whole point).endsInDigit
  | false => exact (h.full point).endsInDigit

theorem decimalNumber_not_atPoint (ahead : lx.cursor.ahead = first :: rest) (hfirst : first.isDigit = true) :
    ¬(lx.after (lx.decimalNumber first rest)).AtPoint := by
  obtain ⟨t, cs, more, errors, split, hscan, reaches⟩ := lx.decimalNumber_reaches hfirst rest
  obtain ⟨before, d, rfl, digit⟩ := reaches.endsInDigit
  rw [hscan]
  refine not_atPoint_of_last (ahead.trans split) (by simp [emit]) ?_
  rintro rfl
  exact absurd digit (by decide)

/-! ### Literals and templates -/

theorem stringLiteral_not_atPoint (ahead : lx.cursor.ahead = '"' :: rest) :
    ¬(lx.after (lx.stringLiteral rest)).AtPoint := by
  unfold stringLiteral
  split
  · rename_i n hn
    obtain ⟨text, more, rfl, rfl⟩ := unescapedLength?_eq_some hn
    have split : lx.cursor.ahead = (('"' :: text) ++ ['"']) ++ more := by simp [ahead]
    exact not_atPoint_of_last split rfl (by decide)
  · refine not_atPoint_of_end ?_
    rw [ahead]
    rfl

theorem charLiteral_pointed (on : lx.spot.On lx.source) (ahead : lx.cursor.ahead = '\x27' :: rest)
    (h : (lx.after (lx.charLiteral rest)).AtPoint) :
    Pointed (lx.charLiteral rest) (lx.after (lx.charLiteral rest)).cursor.pos := by
  unfold charLiteral at h ⊢
  split at h
  case h_1 | h_2 =>
    have split : lx.cursor.ahead = ([] ++ ['\x27']) ++ _ := ahead
    exact absurd h (not_atPoint_of_last split rfl (by decide))
  case h_3 =>
    have split : lx.cursor.ahead = (['\x27'] ++ ['\x27']) ++ _ := ahead
    exact absurd h (not_atPoint_of_last split rfl (by decide))
  case h_4 c body _ _ =>
    generalize lx.charValue c body = found at h ⊢
    obtain ⟨said, length, errors⟩ := found
    dsimp only at h ⊢
    split at h
    · rename_i quote
      have taken : lx.cursor.ahead.take (length + 1 + 1) = ('\x27' :: (c :: body).take length) ++ ['\x27'] := by
        rw [ahead, List.take_succ_cons, take_add_one_of_head? quote, List.cons_append]
      exact absurd (h.eq_point taken) (by decide)
    · rename_i quote
      rw [if_neg quote]
      refine .dropped rfl (List.mem_append_right _ (List.mem_singleton_self _)) rfl (rangeAt_stop on ?_)
      rw [taken, ahead]
      simp only [skip, List.take_succ_cons, Text.byteLength_cons]
      exact Nat.add_comm _ _

/-- A look that goes on as the text of a template after its first character. -/
theorem templateText_not_atPoint (ahead : lx.cursor.ahead = first :: rest) {resumed : Bool}
    (length : s.length = (lx.templateText rest resumed).length) : ¬(lx.after s).AtPoint := by
  obtain ⟨text, stop, more, rfl, hmore, hscan⟩ := lx.templateText_eq rest resumed
  rw [hscan] at length
  cases stop with
  | backtick =>
    have split : lx.cursor.ahead = ((first :: text) ++ ['\x60']) ++ more := by simp [ahead, SegmentEnd.mark]
    exact not_atPoint_of_last split length (by decide)
  | hole =>
    have split : lx.cursor.ahead = ((first :: (text ++ ['$'])) ++ ['\x7b']) ++ more := by simp [ahead, SegmentEnd.mark]
    exact not_atPoint_of_last split (by simp [length, segmentScan]) (by decide)
  | input =>
    obtain rfl := hmore rfl
    refine not_atPoint_of_end ?_
    simp [ahead, length, segmentScan, SegmentEnd.mark]

theorem template_not_atPoint (ahead : lx.cursor.ahead = '\x60' :: rest) : ¬(lx.after (lx.template rest)).AtPoint := by
  unfold template
  split
  · unfold nestedTemplate
    split
    · rename_i n hn
      obtain ⟨text, more, rfl, rfl⟩ := unescapedLength?_eq_some hn
      have split : lx.cursor.ahead = (('\x60' :: text) ++ ['\x60']) ++ more := by simp [ahead]
      exact not_atPoint_of_last split rfl (by decide)
    · refine not_atPoint_of_end ?_
      rw [ahead]
      rfl
  · exact templateText_not_atPoint ahead rfl

/-! ### Symbols -/

/-- A look that gives the token of a symbol. -/
theorem pointed_of_symbol {k : Kind} (on : lx.spot.On lx.source) (hk : Kind.ofSymbol? lx.cursor.ahead = some k)
    (length : s.length + 1 = k.text.toList.length)
    (tokens : s.tokens = [.bare k (lx.rangeAt 0 k.text.toList.length)]) (h : (lx.after s).AtPoint) :
    Pointed s (lx.after s).cursor.pos := by
  have symbols : ∀ k ∈ Kind.symbols, byteLength k.text.toList = k.text.toList.length ∧
    (k.text.toList.getLast? = some '.' → k.isPoints = true) := by decide
  obtain ⟨bytes, points⟩ := symbols k (List.mem_of_find?_eq_some hk)
  obtain ⟨more, hmore⟩ := Kind.prefix_of_ofSymbol? hk
  have taken := taken_eq hmore.symm length
  refine .token tokens (points ?_) (rangeAt_stop on (by rw [taken, bytes]))
  obtain ⟨before, c, split⟩ := (List.eq_nil_or_concat' k.text.toList).resolve_left
    (List.ne_nil_of_length_eq_add_one length.symm)
  rw [split, h.eq_point (taken.trans split), List.getLast?_concat]

theorem symbol_pointed {k : Kind} (on : lx.spot.On lx.source) (ahead : lx.cursor.ahead = first :: rest)
    (hk : Kind.ofSymbol? (first :: rest) = some k) (h : (lx.after (lx.symbol k rest)).AtPoint) :
    Pointed (lx.symbol k rest) (lx.after (lx.symbol k rest)).cursor.pos := by
  have nonempty : ∀ k ∈ Kind.symbols, k.text.toList.length - 1 + 1 = k.text.toList.length := by decide
  have length := nonempty k (List.mem_of_find?_eq_some hk)
  rw [← ahead] at hk
  simp only [symbol] at h ⊢
  split at h
  · exact pointed_of_symbol on hk rfl rfl h
  · exact absurd h (templateText_not_atPoint ahead rfl)
  · exact pointed_of_symbol on hk rfl rfl h
  · exact pointed_of_symbol on hk length rfl h

/-! ### One look at the text -/

theorem ne_point_of_ofSymbol? (h : Kind.ofSymbol? (first :: rest) = none) : first ≠ '.' := by
  rintro rfl
  have unfound := List.find?_eq_none.mp h .dot (by decide)
  exact unfound (List.isPrefixOf_iff_prefix.mpr ⟨rest, rfl⟩)

/-- Every look: if it ends between a point and a digit, it is the look at a token or a literal that ends there. -/
theorem scan_pointed (on : lx.spot.On lx.source) (ahead : lx.cursor.ahead = first :: rest) :
    (lx.after (lx.scan first rest)).AtPoint →
      Pointed (lx.scan first rest) (lx.after (lx.scan first rest)).cursor.pos := by
  unfold scan
  split
  · rename_i blank
    exact fun h => absurd h (blanks_not_atPoint ahead blank [])
  split
  · rename_i word
    exact fun h => absurd h (word_not_atPoint ahead word)
  split
  · rename_i digit
    split
    · split
      · rename_i radix
        exact fun h => absurd h (radixInteger_not_atPoint ahead radix)
      · exact fun h => absurd h (decimalNumber_not_atPoint ahead digit)
    · exact fun h => absurd h (decimalNumber_not_atPoint ahead digit)
  split
  · exact fun h => absurd h (lineComment_not_atPoint ahead [])
  · exact fun h => absurd h (blockComment_not_atPoint ahead)
  · exact charLiteral_pointed on ahead
  · exact fun h => absurd h (stringLiteral_not_atPoint ahead)
  · exact fun h => absurd h (template_not_atPoint ahead)
  · split
    · exact symbol_pointed on ahead ‹_›
    · rename_i unfound
      have split : lx.cursor.ahead = ([] ++ [first]) ++ rest := ahead
      exact fun h => absurd h (not_atPoint_of_last split rfl (ne_point_of_ofSymbol? unfound))

end Lexer

end BraceLang
