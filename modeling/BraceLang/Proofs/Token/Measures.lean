import BraceLang.Proofs.Source.Places
import BraceLang.Proofs.Token.Numerals
import BraceLang.Proofs.Token.Points

/-! How far numbers reach behind points. Whether a number is whole is read off the two characters before it alone; as
    a point there is accounted for by the token or the literal that ends in it, the token before a number tells how
    far the number reaches.

    Main statement: of the decimal numbers that the lexer of a source gives, those behind `?.` are whole, and those
    behind a `.` unless one more point stands before it; those behind `..` and `...` are full, and those behind
    anything else unless a broken character literal ends there (`Lexer.start_calls_decimal`). -/

namespace BraceLang

open Text (byteLength)

/-- Characters of which the last is a point and the one before it is none. -/
def EndsInPoint (cs : List Char) : Prop := ['.'] <:+ cs ∧ ¬['.', '.'] <:+ cs

namespace Lexer
variable {lx : Lexer} {first : Char} {rest : List Char} {s : Scan}

theorem afterPoint_iff (lx : Lexer) : lx.afterPoint = true ↔ EndsInPoint lx.cursor.behind.reverse := by
  have reversed : EndsInPoint lx.cursor.behind.reverse ↔
      ['.'] <+: lx.cursor.behind ∧ ¬['.', '.'] <+: lx.cursor.behind :=
    and_congr (@List.reverse_suffix Char ['.'] _) (not_congr (@List.reverse_suffix Char ['.', '.'] _))
  rw [reversed]
  unfold afterPoint
  split
  · rename_i more behind
    rw [behind]
    exact iff_of_false (fun h => by cases h) fun h => h.2 ⟨more, rfl⟩
  · rename_i more other behind
    rw [behind]
    refine iff_of_true rfl ⟨⟨more, rfl⟩, ?_⟩
    rintro ⟨more', hmore⟩
    obtain rfl := (List.cons.inj hmore).2
    exact other _ rfl
  · rename_i other
    refine iff_of_false (fun h => by cases h) ?_
    rintro ⟨⟨more, hmore⟩, -⟩
    exact other more hmore.symm

/-! ### Looks at numbers -/

/-- A look that gives no number. -/
def Numberless (s : Scan) : Prop := ∀ t ∈ s.tokens, t.kind.isNumber = false

theorem numberless_of_nil (h : s.tokens = []) : Numberless s := by
  rw [Numberless, h]
  exact List.forall_mem_nil _

theorem emit_numberless {t : Token} (h : t.kind.isNumber = false) (n : Nat) (errors : List LexError) :
    Numberless (lx.emit n t errors) := List.forall_mem_singleton.mpr h

theorem word_numberless : Numberless (lx.word first rest) := by
  simp only [word]
  split
  · exact emit_numberless rfl _ _
  · rename_i k other found
    rcases Kind.ofWord?_eq_some found with ⟨bool, -⟩ | ⟨fixed, -⟩
    · exact absurd bool other
    · exact emit_numberless (Kind.isNumber_of_isFixed k fixed) _ _
  · exact emit_numberless rfl _ _

theorem charLiteral_numberless : Numberless (lx.charLiteral rest) := by
  unfold charLiteral
  split
  case h_4 =>
    dsimp only
    split
    · exact emit_numberless rfl _ _
    · exact numberless_of_nil rfl
  all_goals exact numberless_of_nil rfl

theorem stringLiteral_numberless : Numberless (lx.stringLiteral rest) := by
  unfold stringLiteral
  split
  · exact emit_numberless rfl _ _
  · exact emit_numberless rfl _ _

theorem templateText_numberless (resumed : Bool) : Numberless (lx.templateText rest resumed) := by
  obtain ⟨text, stop, -, -, -, hscan⟩ := lx.templateText_eq rest resumed
  rw [hscan]
  have segment : ∀ t ∈ [lx.segmentToken text], t.kind.isNumber = false := List.forall_mem_singleton.mpr rfl
  have optional : ∀ t ∈ if text.isEmpty then [] else [lx.segmentToken text], t.kind.isNumber = false := by
    split
    · exact List.forall_mem_nil _
    · exact segment
  cases stop with
  | backtick | input => exact List.forall_mem_append.mpr ⟨optional, List.forall_mem_singleton.mpr rfl⟩
  | hole =>
    unfold Numberless
    dsimp only [segmentScan]
    split
    · exact segment
    · exact optional

theorem template_numberless : Numberless (lx.template rest) := by
  unfold template
  split
  · unfold nestedTemplate
    split
    all_goals simp [Numberless, Token.bare, segmentToken, Kind.isNumber]
  · exact List.forall_mem_cons.mpr ⟨rfl, templateText_numberless false⟩

theorem symbol_numberless {k : Kind} (hk : Kind.ofSymbol? (first :: rest) = some k) :
    Numberless (lx.symbol k rest) := by
  have kind := Kind.isNumber_of_isFixed k (Kind.isFixed_of_mem_symbols (List.mem_of_find?_eq_some hk))
  simp only [symbol]
  split
  · exact List.forall_mem_singleton.mpr rfl
  · exact templateText_numberless true
  · exact List.forall_mem_singleton.mpr rfl
  · exact emit_numberless kind _ _

/-- A look at a number gives nothing but the number, which is at the cursor: an integer with the letter of a base,
    or a decimal number that reaches as far as it may. -/
structure Counts (lx : Lexer) (s : Scan) (t : Token) (cs rest : List Char) : Prop where
  tokens : s.tokens = [t]
  ahead : lx.cursor.ahead = cs ++ rest
  range : t.range = lx.rangeOf cs
  reaches : (∃ b ∈ bases, ['0', b.1] <+: cs) ∨ lx.Reaches t cs rest

theorem radixInteger_counts {letter : Char} {radix : Radix} (ahead : lx.cursor.ahead = '0' :: letter :: rest)
    (hradix : Radix.ofLetter? letter = some radix) :
    ∃ t cs more, lx.Counts (lx.radixInteger radix letter rest) t cs more := by
  have based (more : List Char) : ∃ b ∈ bases, ['0', b.1] <+: '0' :: letter :: more :=
    ⟨_, mem_bases_of_ofLetter? hradix, more, rfl⟩
  simp only [radixInteger]
  split
  · exact ⟨_, _, _, rfl, ahead_takeWhile₂ ahead _, rfl, .inl (based _)⟩
  · obtain ⟨t, errors, hscan, range, -⟩ := lx.integer_eq ('0' :: letter :: rest.takeWhile (isDigitIn radix.base))
      (positional radix.base (rest.takeWhile (isDigitIn radix.base)))
    exact ⟨t, _, _, congrArg Scan.tokens hscan, ahead_takeWhile₂ ahead _, range, .inl (based _)⟩

theorem decimalNumber_counts (ahead : lx.cursor.ahead = first :: rest) (hfirst : first.isDigit = true) :
    ∃ t cs more, lx.Counts (lx.decimalNumber first rest) t cs more := by
  obtain ⟨t, cs, more, errors, split, hscan, reaches⟩ := lx.decimalNumber_reaches hfirst rest
  exact ⟨t, cs, more, congrArg Scan.tokens hscan, ahead.trans split, reaches.range, .inr reaches⟩

theorem scan_counts (ahead : lx.cursor.ahead = first :: rest) : Numberless (lx.scan first rest) ∨
    first.isDigit = true ∧ ∃ t cs more, lx.Counts (lx.scan first rest) t cs more := by
  unfold scan
  split
  · exact .inl (numberless_of_nil rfl)
  split
  · exact .inl word_numberless
  split
  · rename_i digit
    refine .inr ⟨digit, ?_⟩
    split
    · split
      · exact radixInteger_counts ahead ‹_›
      · exact decimalNumber_counts ahead digit
    · exact decimalNumber_counts ahead digit
  refine .inl ?_
  split
  · exact numberless_of_nil rfl
  · exact numberless_of_nil (lx.blockComment_tokens _)
  · exact charLiteral_numberless
  · exact stringLiteral_numberless
  · exact template_numberless
  · split
    · exact symbol_numberless ‹_›
    · exact numberless_of_nil rfl

end Lexer

/-! ### Calls -/

/-- A point before `pos` is accounted for: a token made of points ends there, the last that was given, or a character
    literal that nothing closes, which is among the errors since then. -/
def PointEnds (last : Option Lexed) (errors : List LexError) (pos : Nat) : Prop :=
  (∃ p ∈ last, p.token.kind.isPoints = true ∧ p.token.range.stop.pos = pos) ∨
    ∃ e ∈ errors, e.cause = .unterminated .charLiteral ∧ e.range.stop.pos = pos

/-- A decimal number is whole or full by the characters before it, and a point there is accounted for. -/
structure Lexed.Measured (last : Option Lexed) (x : Lexed) (behind cs rest : List Char) : Prop where
  whole : EndsInPoint behind → WholeNumber rest cs
  full : ¬EndsInPoint behind → FullNumber rest cs
  digits : x.token.kind = .floatLit ↔ ¬∀ c ∈ cs, digitRank c < 10
  point : ['.'] <:+ behind → PointEnds last x.errors (byteLength behind)

/-- If the token of a call is a number, it is measured, or has the letter of a base. -/
def Lexed.Sized (source : Source) (last : Option Lexed) (x : Lexed) : Prop :=
  x.token.kind.isNumber = true → ∃ behind cs rest, source.chars = behind ++ (cs ++ rest) ∧
    x.token.range = source.range (byteLength behind) (byteLength behind + byteLength cs) ∧
    ((∃ b ∈ bases, ['0', b.1] <+: cs) ∨ x.Measured last behind cs rest)

namespace Lexer
variable {lx : Lexer} {first : Char} {rest : List Char} {last : Option Lexed} {errors : List LexError}

/-- The lexer stands in its text, no number waits to be handed out, and the point before a digit is accounted for.
    What waits was read along with the marks of a template, so nothing waits behind a point. -/
structure Watched (lx : Lexer) (last : Option Lexed) (errors : List LexError) : Prop where
  chars : lx.source.chars = lx.cursor.behind.reverse ++ lx.cursor.ahead
  pos : byteLength lx.cursor.behind.reverse = lx.cursor.pos
  numberless : ∀ t ∈ lx.pending, t.kind.isNumber = false
  point : lx.AtPoint → lx.pending = [] ∧ PointEnds last errors lx.cursor.pos

theorem watched_start (source : Source) : (Lexer.start source).Watched none [] where
  chars := rfl
  pos := rfl
  numberless := List.forall_mem_nil _
  point h := by
    obtain ⟨more, hmore⟩ := h.behind
    cases hmore

namespace Watched

theorem on (h : lx.Watched last errors) : lx.spot.On lx.source := ⟨_, h.chars, h.pos⟩

theorem chars_after (h : lx.Watched last errors) (s : Scan) : (lx.after s).source.chars =
    (lx.after s).cursor.behind.reverse ++ (lx.after s).cursor.ahead := by
  rw [behind_after, List.reverse_append, List.reverse_reverse, List.append_assoc]
  refine h.chars.trans (congrArg (lx.cursor.behind.reverse ++ ·) ?_)
  exact (List.take_append_drop (s.length + 1) lx.cursor.ahead).symm

theorem pos_after (h : lx.Watched last errors) (s : Scan) :
    byteLength (lx.after s).cursor.behind.reverse = (lx.after s).cursor.pos := by
  rw [behind_after, List.reverse_append, List.reverse_reverse, Text.byteLength_append, h.pos]
  rfl

/-- A look that gives nothing. -/
theorem dropped (h : lx.Watched last errors) (ahead : lx.cursor.ahead = first :: rest)
    (tokens : (lx.scan first rest).tokens = []) :
    (lx.after (lx.scan first rest)).Watched last (errors ++ (lx.scan first rest).errors) where
  chars := h.chars_after _
  pos := h.pos_after _
  numberless := by
    rw [after, tokens]
    exact List.forall_mem_nil _
  point atPoint := by
    refine ⟨by rw [after, tokens, List.tail_nil], ?_⟩
    cases scan_pointed h.on ahead atPoint with
    | token one =>
      rw [tokens] at one
      cases one
    | dropped _ he cause stop => exact .inr ⟨_, List.mem_append_right _ he, cause, stop⟩

/-- A look that gives a token. -/
theorem given (h : lx.Watched last errors) (ahead : lx.cursor.ahead = first :: rest) {token : Token}
    {more : List Token} (tokens : (lx.scan first rest).tokens = token :: more) (found : List LexError) :
    (lx.after (lx.scan first rest)).Watched (some ⟨token, found⟩) [] where
  chars := h.chars_after _
  pos := h.pos_after _
  numberless := by
    intro t ht
    rcases scan_counts ahead with numberless | ⟨-, t, _, _, counts⟩
    · exact numberless t (List.mem_of_mem_tail ht)
    · rw [after, counts.tokens] at ht
      cases ht
  point atPoint := by
    cases scan_pointed h.on ahead atPoint with
    | token one kind stop =>
      refine ⟨by rw [after, one, List.tail_cons], .inl ⟨_, rfl, ?_⟩⟩
      rw [tokens] at one
      obtain rfl := (List.cons.inj one).1
      exact ⟨kind, stop⟩
    | dropped none =>
      rw [tokens] at none
      cases none

/-- The token of a look is sized. -/
theorem sized (h : lx.Watched last errors) (ahead : lx.cursor.ahead = first :: rest) {token : Token}
    {more : List Token} (tokens : (lx.scan first rest).tokens = token :: more) :
    Lexed.Sized lx.source last ⟨token, errors ++ (lx.scan first rest).errors⟩ := by
  intro number
  rcases scan_counts ahead with numberless | ⟨digit, t, cs, after, counts⟩
  · have other := numberless token (by rw [tokens]; exact List.mem_cons_self)
    rw [other] at number
    cases number
  · obtain rfl : token = t := (List.cons.inj (tokens.symm.trans counts.tokens)).1
    refine ⟨lx.cursor.behind.reverse, cs, after, ?_, ?_, counts.reaches.imp_right fun reaches => ?_⟩
    · rw [h.chars, counts.ahead]
    · rw [h.pos]
      exact counts.range
    · refine ⟨fun point => reaches.whole (lx.afterPoint_iff.mpr point), fun point => reaches.full ?_, reaches.digits,
        fun point => ?_⟩
      · rw [← Bool.not_eq_true, lx.afterPoint_iff]
        exact point
      · have atPoint : lx.AtPoint := by
          refine ⟨(@List.reverse_suffix Char ['.'] _).mp point, first, ?_, (isDigit_iff _).mp digit⟩
          rw [ahead]
          rfl
        rw [h.pos]
        refine (h.point atPoint).2.imp_right ?_
        rintro ⟨e, he, ends⟩
        exact ⟨e, List.mem_append_left _ he, ends⟩

end Watched

theorem read_sized (h : lx.Watched last errors) (pending : lx.pending = []) :
    (lx.read errors).1.Sized lx.source last ∧ (lx.read errors).2.Watched (some (lx.read errors).1) [] := by
  fun_induction read lx errors with
  | case1 lx errors ahead lexed later ended =>
    simp only [atEnd] at ended
    split at ended
    all_goals
      cases ended
      refine ⟨(fun number => by cases number), h.chars, h.pos, h.numberless, fun atPoint => ?_⟩
      exact absurd atPoint (not_atPoint_of_ahead_nil ahead)
  | case2 lx errors first rest ahead s tokens ih =>
    exact ih (h.dropped ahead tokens) (by rw [after, tokens, List.tail_nil])
  | case3 lx errors first rest ahead s token more tokens =>
    exact ⟨h.sized ahead tokens, h.given ahead tokens _⟩

theorem next_sized (h : lx.Watched last []) :
    lx.next.1.Sized lx.source last ∧ lx.next.2.Watched (some lx.next.1) [] := by
  cases pending : lx.pending with
  | nil =>
    rw [next_of_pending_nil pending]
    exact read_sized h pending
  | cons token waiting =>
    have hnext : lx.next = (⟨token, []⟩, { lx with pending := waiting }) := by
      unfold next
      rw [pending]
    have numberless := h.numberless
    rw [pending, List.forall_mem_cons] at numberless
    rw [hnext]
    refine ⟨fun number => ?_, h.chars, h.pos, numberless.2, fun atPoint => ?_⟩
    · rw [numberless.1] at number
      cases number
    · have nothing := (h.point ⟨atPoint.behind, atPoint.ahead⟩).1
      rw [pending] at nothing
      cases nothing

/-- The token of every call is sized after the token of the call before it. -/
theorem call_sized (source : Source) (n : Nat) :
    ((Lexer.start source).call n).Sized source ((Lexer.start source).calls n).getLast? := by
  have watched : ((Lexer.start source).afterCalls n).Watched ((Lexer.start source).calls n).getLast? [] := by
    induction n with
    | zero => exact watched_start source
    | succ n ih =>
      rw [afterCalls_succ, calls_succ, List.getLast?_concat]
      exact (next_sized ih).2
  have sized := (next_sized watched).1
  rw [afterCalls_source] at sized
  exact sized

end Lexer

/-! ### The token before a number -/

/-- One token ends where another starts. -/
def Token.Meets (t u : Token) : Prop := t.range.stop.pos = u.range.start.pos

/-- A decimal number is whole behind a single point and full elsewhere, whatever is before it. In terms of the last
    token, it is whole behind `?.` and behind a `.` before which there is no point; it is full behind `..` and `...`,
    and where none of these ends, unless a character literal that nothing closes ends there. -/
structure Lexed.Decimal (last : Option Lexed) (x : Lexed) (behind cs rest : List Char) : Prop where
  whole : EndsInPoint behind → WholeNumber rest cs
  full : ¬EndsInPoint behind → FullNumber rest cs
  digits : x.token.kind = .floatLit ↔ ¬∀ c ∈ cs, digitRank c < 10
  questionDot : ∀ p ∈ last, p.token.kind = .questionDot → p.token.Meets x.token → WholeNumber rest cs
  dot : ∀ p ∈ last, p.token.kind = .dot → p.token.Meets x.token → ¬['.', '.'] <:+ behind → WholeNumber rest cs
  dots : ∀ p ∈ last, p.token.kind = .dotDot ∨ p.token.kind = .dotDotDot → p.token.Meets x.token → FullNumber rest cs
  apart : (∀ p ∈ last, p.token.kind.isPoints = true → ¬p.token.Meets x.token) →
    (∀ e ∈ x.errors, e.cause = .unterminated .charLiteral → e.range.stop.pos ≠ x.token.range.start.pos) →
    FullNumber rest cs

/-- The token of a call stands between two pieces of a source, and is a decimal number unless it is no number or has
    the letter of a base. -/
structure Lexed.DecimalIn (source : Source) (last : Option Lexed) (x : Lexed) (behind cs rest : List Char) :
    Prop where
  chars : source.chars = behind ++ (cs ++ rest)
  range : x.token.range = source.range (byteLength behind) (byteLength behind + byteLength cs)
  decimal : x.token.kind.isNumber = true → (∀ b ∈ bases, ¬['0', b.1] <+: cs) → x.Decimal last behind cs rest

theorem Lexed.IsWritten.suffix {source : Source} {p : Lexed} {behind after : List Char} (h : p.IsWritten source)
    (chars : source.chars = behind ++ after) (fixed : p.token.kind.isFixed = true)
    (stop : p.token.range.stop.pos = byteLength behind) : p.token.kind.text.toList <:+ behind := by
  obtain ⟨before, cs, rest, own, h⟩ := h
  have split : (before ++ cs) ++ rest = behind ++ after := by rw [← chars, h.chars, List.append_assoc]
  have size : byteLength (before ++ cs) = byteLength behind := by rw [← stop, h.range_pos.2, Text.byteLength_append]
  obtain ⟨mid, rfl⟩ := Text.append_of_byteLength_le split (Nat.le_of_eq size)
  obtain rfl : mid = [] := by
    cases mid with
    | nil => rfl
    | cons c mid =>
      have pos := c.utf8Size_pos
      simp only [Text.byteLength_append, Text.byteLength_cons] at size
      omega
  rw [List.append_nil]
  exact ⟨before, congrArg (before ++ ·) (h.written.eq_of_fixed fixed).symm⟩

theorem Lexer.isWritten_of_mem_calls {source : Source} {n : Nat} {p : Lexed} (h : p ∈ (Lexer.start source).calls n) :
    p.IsWritten source := by
  obtain ⟨m, -, rfl⟩ := List.mem_map.mp h
  exact call_isWritten source m

/-- Ends of one text that are equally long are equal. -/
theorem eq_of_suffixes {as bs cs : List Char} (h : as <:+ cs) (h' : bs <:+ cs) (length : as.length = bs.length) :
    as = bs := (List.suffix_of_suffix_length_le h h' (Nat.le_of_eq length)).eq_of_length length

theorem Lexed.Measured.decimal {source : Source} {last : Option Lexed} {x : Lexed} {behind cs rest : List Char}
    (h : x.Measured last behind cs rest) (chars : source.chars = behind ++ (cs ++ rest))
    (start : x.token.range.start.pos = byteLength behind) (written : ∀ p ∈ last, p.IsWritten source) :
    x.Decimal last behind cs rest := by
  -- the last token ends the text before the number
  have suffix {k : Kind} (fixed : k.isFixed = true) : ∀ p ∈ last, p.token.kind = k → p.token.Meets x.token →
      k.text.toList <:+ behind := by
    rintro p hp rfl meets
    exact (written p hp).suffix chars fixed (meets.trans start)
  have double : ['.', '.'] <:+ behind → FullNumber rest cs := fun points => h.full fun point => point.2 points
  refine ⟨h.whole, h.full, h.digits, fun p hp kind meets => ?_, fun p hp kind meets single => ?_,
    fun p hp kind meets => ?_, fun alone unbroken => ?_⟩
  · have point : ['?', '.'] <:+ behind := suffix rfl p hp kind meets
    refine h.whole ⟨.trans ⟨['?'], rfl⟩ point, fun points => ?_⟩
    exact absurd (eq_of_suffixes point points rfl) (by decide)
  · exact h.whole ⟨suffix rfl p hp kind meets, single⟩
  · rcases kind with kind | kind
    · exact double (suffix rfl p hp kind meets)
    · have points : ['.', '.', '.'] <:+ behind := suffix rfl p hp kind meets
      exact double (.trans ⟨['.'], rfl⟩ points)
  · refine h.full fun point => ?_
    rcases h.point point.1 with ⟨p, hp, kind, stop⟩ | ⟨e, he, cause, stop⟩
    · exact alone p hp kind (stop.trans start.symm)
    · exact unbroken e he cause (stop.trans start.symm)

/-- Whatever call of the lexer of a source: if its token is a decimal number, the characters before it and the token
    of the call before tell how far it reaches. -/
theorem Lexer.start_calls_decimal (source : Source) (n : Nat) : ∃ behind cs rest,
    ((Lexer.start source).call n).DecimalIn source ((Lexer.start source).calls n).getLast? behind cs rest := by
  have written : ∀ p ∈ ((Lexer.start source).calls n).getLast?, p.IsWritten source :=
    fun p hp => isWritten_of_mem_calls (List.mem_of_getLast? hp)
  by_cases number : ((Lexer.start source).call n).token.kind.isNumber = true
  · obtain ⟨behind, cs, rest, chars, range, sized⟩ := call_sized source n number
    refine ⟨behind, cs, rest, chars, range, fun _ plain => ?_⟩
    rcases sized with ⟨b, hb, based⟩ | measured
    · exact absurd based (plain b hb)
    · refine measured.decimal chars ?_ written
      rw [range]
      refine Source.range_start_pos ?_
      rw [source.length_eq, chars, Text.byteLength_append]
      exact Nat.le_add_right _ _
  · obtain ⟨behind, cs, rest, _, h⟩ := call_isWritten source n
    exact ⟨behind, cs, rest, h.chars, h.range, fun number' => absurd number' number⟩

/-- Behind `...` and a point that no other point belongs to, the character before the point is one more, so the
    number takes its fraction. -/
theorem Lexer.start_calls_fraction_after_dot :
    ((Lexer.start (.ofText 0 "main" "....1.5")).call 1).token.kind = .dot ∧
      ((Lexer.start (.ofText 0 "main" "....1.5")).call 1).token.range.stop.pos =
        ((Lexer.start (.ofText 0 "main" "....1.5")).call 2).token.range.start.pos ∧
      ((Lexer.start (.ofText 0 "main" "....1.5")).call 2).token.kind = .floatLit := by
  decide +kernel

end BraceLang
