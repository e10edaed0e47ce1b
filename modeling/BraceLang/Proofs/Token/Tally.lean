import BraceLang.Proofs.Token.Calls
import BraceLang.Proofs.Token.Looks

/-! How many tokens a text has. A look at the text gives at most two tokens for each byte that it takes, except
    that a template in a hole may give three for its backtick alone; the hole makes up for it (`Lexer.tally`).

    Main statement: a lexer comes to the end after at most two tokens for each byte of the text, and stays
    there. -/

namespace BraceLang

open Text (byteLength)

namespace Lexer

/-- What a hole may give beyond two tokens for each byte: the close of its template and, before the end of the
    text, one more for a template in the hole that nothing closes. -/
def owed : Option Nat → List Char → Nat
  | none, _ => 0
  | some _, [] => 1
  | some _, _ :: _ => 2

@[simp]
theorem owed_cons (braces : Nat) (c : Char) (ahead : List Char) : owed (some braces) (c :: ahead) = 2 := rfl

theorem owed_le_two (hole : Option Nat) (ahead : List Char) : owed hole ahead ≤ 2 := by
  unfold owed
  split <;> decide

theorem owed_le_of_cons {hole hole' : Option Nat} (h : hole'.isSome = hole.isSome) (ahead' : List Char) (c : Char)
    (ahead : List Char) : owed hole' ahead' ≤ owed hole (c :: ahead) := by
  cases hole with
  | none =>
    cases hole' with
    | none => exact Nat.le_refl 0
    | some _ => cases h
  | some _ => exact owed_le_two hole' ahead'

/-- A bound on the tokens still to come. -/
def tally (lx : Lexer) : Nat :=
  2 * byteLength lx.cursor.ahead + lx.pending.length + owed lx.hole lx.cursor.ahead

/-! ### One look at the text -/

variable {lx : Lexer} {first : Char} {rest : List Char}

/-- The tokens of a look and what is owed behind it are paid for by the bytes it takes and what was owed
    before. -/
def Thrifty (lx : Lexer) (s : Scan) : Prop :=
  s.tokens.length + owed s.hole (lx.after s).cursor.ahead ≤
    2 * byteLength (lx.taken s) + owed lx.hole lx.cursor.ahead

theorem byteLength_taken (ahead : lx.cursor.ahead = first :: rest) (s : Scan) :
    byteLength (lx.taken s) = first.utf8Size + byteLength (rest.take s.length) := by
  rw [taken, ahead, List.take_succ_cons, Text.byteLength_cons]

theorem ahead_after (ahead : lx.cursor.ahead = first :: rest) (s : Scan) :
    (lx.after s).cursor.ahead = rest.drop s.length := by
  simp only [after, Cursor.advance, ahead, List.drop_succ_cons]

theorem thrifty_of_length_le_one (ahead : lx.cursor.ahead = first :: rest) {s : Scan} (few : s.tokens.length ≤ 1)
    (hole : s.hole.isSome = lx.hole.isSome) : lx.Thrifty s := by
  have kept := owed_le_of_cons hole (lx.after s).cursor.ahead first rest
  have hfirst := first.utf8Size_pos
  rw [Thrifty, byteLength_taken ahead, ahead]
  omega

theorem Simple.thrifty (ahead : lx.cursor.ahead = first :: rest) {s : Scan} (h : lx.Simple s) : lx.Thrifty s := by
  refine thrifty_of_length_le_one ahead ?_ (congrArg Option.isSome h.hole)
  rcases h.tokens with none | ⟨t, n, one, -, -⟩
  · rw [none]
    exact Nat.zero_le 1
  · rw [one]
    exact Nat.le_refl 1

/-- Template text that is not empty pays for its token. -/
theorem length_segment_le (lx : Lexer) (text : List Char) :
    (if text.isEmpty then [] else [lx.segmentToken text]).length ≤ byteLength text := by
  cases text with
  | nil => exact Nat.le_refl 0
  | cons c text => exact Nat.le_add_right_of_le c.utf8Size_pos

/-- Template text and what ends it. Only where the text ends with nothing does the close of the template have no
    byte of its own. -/
theorem templateText_length_le (lx : Lexer) (rest : List Char) (resumed : Bool) :
    (lx.templateText rest resumed).tokens.length +
        owed (lx.templateText rest resumed).hole (rest.drop (lx.templateText rest resumed).length) ≤
      2 * byteLength (rest.take (lx.templateText rest resumed).length) + 1 := by
  obtain ⟨text, stop, more, rfl, hmore, hscan⟩ := lx.templateText_eq rest resumed
  rw [hscan]
  have segment := lx.length_segment_le text
  cases stop with
  | backtick =>
    dsimp only [segmentScan]
    rw [List.take_length_add_append, Text.byteLength_append, List.length_append, List.length_singleton]
    have mark : byteLength (List.take 1 (SegmentEnd.backtick.mark ++ more)) = 1 := rfl
    dsimp only [owed]
    omega
  | hole =>
    dsimp only [segmentScan]
    rw [List.take_length_add_append, Text.byteLength_append]
    have mark : byteLength (List.take 2 (SegmentEnd.hole.mark ++ more)) = 2 := rfl
    have few := owed_le_two (some 0) (List.drop (text.length + 2) (text ++ (SegmentEnd.hole.mark ++ more)))
    split
    · rw [List.length_singleton]
      omega
    · omega
  | input =>
    dsimp only [segmentScan]
    rw [List.take_left, List.length_append, List.length_singleton]
    dsimp only [owed]
    omega

theorem nestedTemplate_thrifty {braces : Nat} (ahead : lx.cursor.ahead = '\x60' :: rest)
    (hole : lx.hole = some braces) : lx.Thrifty (lx.nestedTemplate rest) := by
  have size : Char.utf8Size '\x60' = 1 := rfl
  rw [Thrifty, byteLength_taken ahead, ahead_after ahead, ahead, hole, size]
  unfold nestedTemplate
  rw [hole]
  split
  · rename_i n hn
    obtain ⟨text, more, rfl, rfl⟩ := unescapedLength?_eq_some hn
    have few := owed_le_two (some braces) (List.drop (text.length + 1) (text ++ (['\x60'] ++ more)))
    have mark : byteLength (List.take 1 (['\x60'] ++ more)) = 1 := rfl
    rw [List.take_length_add_append, Text.byteLength_append, owed_cons]
    dsimp only [List.length_cons, List.length_nil]
    omega
  · rw [List.drop_length, owed_cons]
    dsimp only [owed, List.length_cons, List.length_nil]
    omega

theorem template_thrifty (ahead : lx.cursor.ahead = '\x60' :: rest) : lx.Thrifty (lx.template rest) := by
  unfold template
  split
  · rename_i braces hole
    exact nestedTemplate_thrifty ahead hole
  · rename_i hole
    have text := lx.templateText_length_le rest false
    have size : Char.utf8Size '\x60' = 1 := rfl
    rw [Thrifty, byteLength_taken ahead, ahead_after ahead, size]
    dsimp only [List.length_cons]
    omega

theorem symbol_thrifty (ahead : lx.cursor.ahead = first :: rest) (k : Kind) : lx.Thrifty (lx.symbol k rest) := by
  simp only [symbol]
  split
  · rename_i hole
    exact thrifty_of_length_le_one ahead (Nat.le_refl 1) (by rw [hole]; rfl)
  · rename_i hole
    have text := lx.templateText_length_le rest true
    have hfirst := first.utf8Size_pos
    rw [Thrifty, byteLength_taken ahead, ahead_after ahead]
    omega
  · rename_i hole
    exact thrifty_of_length_le_one ahead (Nat.le_refl 1) (by rw [hole]; rfl)
  · exact thrifty_of_length_le_one ahead (Nat.le_refl 1) rfl

theorem scan_thrifty (ahead : lx.cursor.ahead = first :: rest) : lx.Thrifty (lx.scan first rest) := by
  rcases lx.scan_cases first rest with simple | ⟨rfl, hscan⟩ | ⟨k, -, hscan⟩
  · exact simple.thrifty ahead
  · rw [hscan]
    exact template_thrifty ahead
  · rw [hscan]
    exact symbol_thrifty ahead k

/-- The tokens of a look are taken off the tally. -/
theorem tally_after_le (ahead : lx.cursor.ahead = first :: rest) :
    (lx.after (lx.scan first rest)).tally + ((lx.scan first rest).tokens.length -
      (lx.scan first rest).tokens.tail.length) ≤ lx.tally := by
  have look := scan_thrifty ahead
  have size : byteLength lx.cursor.ahead =
      byteLength (lx.taken (lx.scan first rest)) + byteLength (lx.after (lx.scan first rest)).cursor.ahead := by
    rw [← Text.byteLength_append, taken, after, Cursor.advance, List.take_append_drop]
  have pending : (lx.after (lx.scan first rest)).pending = (lx.scan first rest).tokens.tail := rfl
  have hole : (lx.after (lx.scan first rest)).hole = (lx.scan first rest).hole := rfl
  rw [Thrifty] at look
  rw [tally, tally, pending, hole, size, List.length_tail]
  omega

/-! ### Calls -/

theorem read_tally_lt (lx : Lexer) (errors : List LexError) (h : (lx.read errors).1.token.kind ≠ .eof) :
    (lx.read errors).2.tally < lx.tally := by
  fun_induction read lx errors with
  | case1 lx errors ahead lexed later ended =>
    simp only [atEnd] at ended
    split at ended
    · rename_i hole
      cases ended
      simp only [tally, ahead, hole, owed]
      omega
    · cases ended
      exact absurd rfl h
  | case2 lx errors first rest ahead s tokens ih =>
    have look := tally_after_le ahead
    exact Nat.lt_of_lt_of_le (ih h) (Nat.le_of_add_right_le look)
  | case3 lx errors first rest ahead s token more tokens =>
    have look := tally_after_le ahead
    rw [tokens, List.tail_cons, List.length_cons, Nat.add_sub_cancel_left] at look
    exact look

theorem next_tally_lt (lx : Lexer) (h : lx.next.1.token.kind ≠ .eof) : lx.next.2.tally < lx.tally := by
  cases pending : lx.pending with
  | nil =>
    rw [next_of_pending_nil pending] at h ⊢
    exact lx.read_tally_lt [] h
  | cons token waiting =>
    have hnext : lx.next = (⟨token, []⟩, { lx with pending := waiting }) := by
      unfold next
      rw [pending]
    rw [hnext]
    simp only [tally, pending, List.length_cons]
    omega

/-- The end comes after at most as many calls as the tally says. -/
theorem exists_call_eof (lx : Lexer) (ready : lx.Ready) :
    ∃ k ≤ lx.tally, (∀ i < k, (lx.call i).token.kind ≠ .eof) ∧ (lx.call k).token = .bare .eof lx.endRange ∧
      (lx.afterCalls (k + 1)).Ended := by
  by_cases hkind : lx.next.1.token.kind = .eof
  · obtain ⟨htoken, ended⟩ := next_of_eof ready hkind
    exact ⟨0, Nat.zero_le _, fun i hi => absurd hi (Nat.not_lt_zero i), htoken, ended⟩
  · have less := lx.next_tally_lt hkind
    obtain ⟨k, hk, before, htoken, ended⟩ := exists_call_eof lx.next.2 (ready_next ready)
    refine ⟨k + 1, Nat.lt_of_le_of_lt hk less, fun i hi => ?_, ?_, ended⟩
    · cases i with
      | zero => exact hkind
      | succ i => exact before i (Nat.lt_of_succ_lt_succ hi)
    · rw [call_succ, htoken, endRange, next_source]
      rfl
termination_by lx.tally
decreasing_by exact less

theorem afterCalls_of_ended {k : Nat} (ended : (lx.afterCalls k).Ended) {i : Nat} (hi : k ≤ i) :
    lx.afterCalls i = lx.afterCalls k := by
  induction i, hi using Nat.le_induction with
  | base => rfl
  | succ i _ ih => rw [afterCalls_succ, ih, next_of_ended ended]

/-- The lexer of a source gives at most two tokens for each byte of the text before it gives the end, which stands
    at the end of the text; and every call after that gives the end again, with nothing wrong, and leaves the lexer
    as it is. -/
theorem start_calls_settle (source : Source) : ∃ k ≤ 2 * source.length,
    (∀ i < k, ((Lexer.start source).call i).token.kind ≠ .eof) ∧
    ((Lexer.start source).call k).token = .bare .eof (source.range source.length source.length) ∧
    (source.range source.length source.length).start.pos = source.length ∧
    (source.range source.length source.length).stop.pos = source.length ∧
    ∀ i, k < i → (Lexer.start source).call i = ⟨((Lexer.start source).call k).token, []⟩ ∧
      (Lexer.start source).afterCalls (i + 1) = (Lexer.start source).afterCalls i := by
  obtain ⟨k, hk, before, htoken, ended⟩ := (Lexer.start source).exists_call_eof (ready_start source)
  have bound : (Lexer.start source).tally = 2 * source.length := by
    rw [source.length_eq]
    rfl
  refine ⟨k, bound ▸ hk, before, htoken, Source.range_start_pos (Nat.le_refl _),
    Source.range_stop_pos (Nat.le_refl _) (Nat.le_refl _), fun i hi => ?_⟩
  have settled : (Lexer.start source).afterCalls i = (Lexer.start source).afterCalls (k + 1) :=
    afterCalls_of_ended ended hi
  have ended' : ((Lexer.start source).afterCalls i).Ended := settled ▸ ended
  constructor
  · rw [htoken, call, next_of_ended ended', endRange, afterCalls_source]
    rfl
  · rw [afterCalls_succ, next_of_ended ended']

end Lexer

end BraceLang
