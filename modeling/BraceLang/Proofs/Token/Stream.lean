import BraceLang.Proofs.Token.Layout
import Mathlib.Data.String.Basic

/-! The stream of tokens, look by look: each look at the text puts its tokens and errors before those of
    the text behind it (`Lexer.stream_scan`), and at the end of the text only an open hole is left to
    close (`Lexer.stream_closing`).

    Main statement: the tokens of a source stand in order on pieces of its text, and between them lies
    nothing but gaps. -/

namespace BraceLang

open Text (byteLength)

/-! ### Slices -/

namespace Text

/-- A text with a character in front is longer than nothing, and without it the rest is left. -/
theorem byteLength_cons_eq_succ (a : Char) (as : List Char) :
    ∃ n, byteLength (a :: as) = n + 1 ∧ a.utf8Size ≤ n + 1 ∧ n + 1 - a.utf8Size = byteLength as := by
  obtain ⟨n, hn⟩ : ∃ n, byteLength (a :: as) = n + 1 :=
    Nat.exists_eq_succ_of_ne_zero (Nat.ne_of_gt (Nat.add_pos_left a.utf8Size_pos _))
  refine ⟨n, hn, hn ▸ Nat.le_add_right _ _, ?_⟩
  rw [← hn, byteLength_cons, Nat.add_sub_cancel_left]

theorem dropBytes?_byteLength (as bs : List Char) : dropBytes? (as ++ bs) (byteLength as) = some bs := by
  induction as with
  | nil => cases bs <;> rfl
  | cons a as ih =>
    obtain ⟨n, hn, hfits, hrest⟩ := byteLength_cons_eq_succ a as
    rw [hn, List.cons_append, dropBytes?, if_pos hfits, hrest, ih]

theorem takeBytes?_byteLength (as bs : List Char) : takeBytes? (as ++ bs) (byteLength as) = some as := by
  induction as with
  | nil => cases bs <;> rfl
  | cons a as ih =>
    obtain ⟨n, hn, hfits, hrest⟩ := byteLength_cons_eq_succ a as
    rw [hn, List.cons_append, takeBytes?, if_pos hfits, hrest, ih]
    rfl

theorem slice?_byteLength (as bs cs : List Char) :
    slice? (as ++ (bs ++ cs)) (byteLength as) (byteLength as + byteLength bs) = some bs := by
  rw [slice?, if_pos (Nat.le_add_right _ _), dropBytes?_byteLength, Option.bind_some, Nat.add_sub_cancel_left,
    takeBytes?_byteLength]

theorem utf8ByteSize_ofList (cs : List Char) : (String.ofList cs).utf8ByteSize = byteLength cs := by
  induction cs with
  | nil => rfl
  | cons c cs ih =>
    rw [String.ofList_cons, String.utf8ByteSize_append, String.utf8ByteSize_singleton, ih, byteLength_cons]

end Text

namespace Source
variable {source : Source}

theorem length_eq (source : Source) : source.length = byteLength source.chars := by
  rw [length, chars, ← Text.utf8ByteSize_ofList, String.ofList_toList]

theorem range_start_pos {start stop : Nat} (h : start ≤ source.length) :
    (source.range start stop).start.pos = start := Nat.min_eq_left h

theorem range_stop_pos {start stop : Nat} (h : start ≤ stop) (h' : stop ≤ source.length) :
    (source.range start stop).stop.pos = stop := by
  show min (max stop start) source.length = stop
  rw [Nat.max_eq_left h, Nat.min_eq_left h']

end Source

/-! ### What lies between two places -/

/-- A place that stands in the text of a source. -/
def Spot.On (a : Spot) (source : Source) : Prop :=
  ∃ behind, source.chars = behind ++ a.ahead ∧ byteLength behind = a.pos

theorem Spot.On.step {source : Source} {s s' : Setting} {pos : Nat} {cs rest : List Char}
    (h : Spot.On ⟨s, pos, cs ++ rest⟩ source) : Spot.On ⟨s', pos + byteLength cs, rest⟩ source := by
  obtain ⟨behind, hchars, hpos⟩ := h
  refine ⟨behind ++ cs, ?_, ?_⟩
  · rw [hchars, List.append_assoc]
  · rw [Text.byteLength_append, hpos]

/-- The range of a token is a piece of the text of a source, and starts at `pos` or later. -/
structure Token.Stands (source : Source) (pos : Nat) (t : Token) : Prop where
  source_eq : t.range.source = source.id
  slice : (source.slice? t.range.start.pos t.range.stop.pos).isSome = true
  pos_le : pos ≤ t.range.start.pos

theorem Token.Stands.weaken {source : Source} {pos pos' : Nat} {t : Token} (h : t.Stands source pos')
    (le : pos ≤ pos') : t.Stands source pos := ⟨h.source_eq, h.slice, Nat.le_trans le h.pos_le⟩

theorem Token.Stands.start_le_stop {source : Source} {pos : Nat} {t : Token} (h : t.Stands source pos) :
    t.range.start.pos ≤ t.range.stop.pos := by
  by_contra hlt
  have hslice := h.slice
  rw [Source.slice?, Text.slice?, if_neg hlt] at hslice
  cases hslice

/-- A token read from the characters at a place stands there, and ends where they end. -/
theorem Token.stands_of_range {source : Source} {s : Setting} {pos : Nat} {cs rest : List Char} {t : Token}
    (h : Spot.On ⟨s, pos, cs ++ rest⟩ source) (range : t.range = source.range pos (pos + byteLength cs)) :
    t.Stands source pos ∧ t.range.stop.pos = pos + byteLength cs := by
  obtain ⟨behind, hchars, hpos⟩ := h
  dsimp only at hchars hpos
  have inside : pos + byteLength cs ≤ source.length := by
    rw [source.length_eq, hchars, Text.byteLength_append, Text.byteLength_append, hpos]
    omega
  have hstart : t.range.start.pos = pos := by
    rw [range, Source.range_start_pos (Nat.le_of_add_right_le inside)]
  have hstop : t.range.stop.pos = pos + byteLength cs := by
    rw [range, Source.range_stop_pos (Nat.le_add_right _ _) inside]
  refine ⟨⟨by rw [range]; rfl, ?_, Nat.le_of_eq hstart.symm⟩, hstop⟩
  rw [Source.slice?, hchars, hstart, hstop, ← hpos, Text.slice?_byteLength]
  rfl

namespace Lays
variable {source : Source} {logged : List LexError} {a b : Spot} {ts : List Token}

/-- The tokens stand in order on pieces of the text. -/
theorem ordered (h : Lays source logged a ts b) (on : a.On source) :
    (∀ t ∈ ts, t.Stands source a.pos) ∧ ts.Pairwise fun t u => t.range.stop.pos ≤ u.range.start.pos := by
  induction h with
  | nil => exact ⟨List.forall_mem_nil _, .nil⟩
  | gap _ _ ih =>
    obtain ⟨hstands, hpairs⟩ := ih on.step
    exact ⟨fun t ht => (hstands t ht).weaken (Nat.le_add_right _ _), hpairs⟩
  | token _ hrange _ ih =>
    obtain ⟨hstands, hpairs⟩ := ih on.step
    obtain ⟨hfirst, hstop⟩ := Token.stands_of_range on hrange
    refine ⟨List.forall_mem_cons.mpr ⟨hfirst, ?_⟩, List.pairwise_cons.mpr ⟨?_, hpairs⟩⟩
    · exact fun t ht => (hstands t ht).weaken (Nat.le_add_right _ _)
    · intro t ht
      rw [hstop]
      exact (hstands t ht).pos_le
  | cut _ hrange _ _ ih =>
    obtain ⟨hstands, hpairs⟩ := ih on
    have on' : Spot.On ⟨.code, _, [] ++ []⟩ source := on
    obtain ⟨hfirst, hstop⟩ := Token.stands_of_range on' hrange
    refine ⟨List.forall_mem_cons.mpr ⟨hfirst, hstands⟩, List.pairwise_cons.mpr ⟨?_, hpairs⟩⟩
    intro t ht
    rw [hstop]
    exact (hstands t ht).pos_le

end Lays

/-! ### The stream, look by look -/

namespace TokenStream

/-- The tokens up to the end. -/
def toList (stream : TokenStream) : List Token := stream.tokens.map (·.token)

/-- All that is wrong with the text, in order. -/
def errors (stream : TokenStream) : List LexError :=
  stream.tokens.flatMap (·.errors) ++ stream.eof.errors

/-- A stream that gives these tokens and errors before those of `later`. -/
structure Puts (stream : TokenStream) (ts : List Token) (es : List LexError) (later : TokenStream) :
    Prop where
  tokens : stream.toList = ts ++ later.toList
  errors : stream.errors = es ++ later.errors

end TokenStream

namespace Lexer

/-- The lexer with no token waiting to be handed out. -/
def settled (lx : Lexer) : Lexer := { lx with pending := [] }

variable {lx later : Lexer}

theorem settled_eq (h : lx.pending = []) : lx.settled = lx := by
  unfold settled
  rw [← h]

theorem stream_eq_of_eof {lexed : Lexed} (h : lx.next = (lexed, later)) (hkind : lexed.token.kind = .eof) :
    lx.stream.toList = [] ∧ lx.stream.errors = lexed.errors := by
  rw [stream]
  split
  · simp [TokenStream.toList, TokenStream.errors, h]
  · rename_i hne
    rw [h] at hne
    exact absurd hkind hne

theorem stream_puts {lexed : Lexed} (h : lx.next = (lexed, later)) (hkind : lexed.token.kind ≠ .eof) :
    lx.stream.Puts [lexed.token] lexed.errors later.stream := by
  rw [stream]
  split
  · rename_i heq
    rw [h] at heq
    exact absurd heq hkind
  · constructor
    · simp [TokenStream.toList, h]
    · simp [TokenStream.errors, h]

/-- Two lexers that differ only in what was wrong before their next token. -/
theorem stream_puts_errors {other : Lexer} {before : List LexError}
    (h : lx.next = (⟨other.next.1.token, before ++ other.next.1.errors⟩, other.next.2)) :
    lx.stream.Puts [] before other.stream := by
  obtain ⟨lexed, later, hnext⟩ : ∃ lexed later, other.next = (lexed, later) := ⟨_, _, rfl⟩
  rw [hnext] at h
  by_cases hkind : lexed.token.kind = .eof
  · obtain ⟨hlist, herrors⟩ := stream_eq_of_eof h hkind
    obtain ⟨hlist', herrors'⟩ := stream_eq_of_eof hnext hkind
    exact ⟨by rw [hlist, hlist']; rfl, by rw [herrors, herrors']⟩
  · have now := stream_puts h hkind
    have same := stream_puts hnext hkind
    exact ⟨by rw [now.tokens, same.tokens]; rfl, by rw [now.errors, same.errors, List.append_assoc]⟩

theorem stream_pending {ts : List Token} (h : lx.pending = ts) (hts : ∀ t ∈ ts, t.kind ≠ .eof) :
    lx.stream.Puts ts [] lx.settled.stream := by
  induction ts generalizing lx with
  | nil =>
    rw [settled_eq h]
    exact ⟨rfl, rfl⟩
  | cons t ts ih =>
    obtain ⟨ht, hts⟩ := List.forall_mem_cons.mp hts
    have hnext : lx.next = (⟨t, []⟩, { lx with pending := ts }) := by
      rw [next]
      split
      · rename_i heq
        cases h.symm.trans heq
        rfl
      · rename_i heq
        cases h.symm.trans heq
    have first := stream_puts hnext ht
    have others : (Lexer.stream { lx with pending := ts }).Puts ts [] lx.settled.stream := ih rfl hts
    constructor
    · rw [first.tokens, others.tokens]
      rfl
    · rw [first.errors, others.errors]
      rfl

section Read
variable {first : Char} {rest : List Char} {errors : List LexError}

theorem read_of_ahead_nil (ahead : lx.cursor.ahead = []) :
    lx.read errors = (⟨lx.atEnd.1.token, errors ++ lx.atEnd.1.errors⟩, lx.atEnd.2) := by
  rw [read]
  split
  · rfl
  · rename_i heq
    cases ahead.symm.trans heq

/-- A look that finds no token leads to the text behind it. -/
theorem read_of_scan_nil (ahead : lx.cursor.ahead = first :: rest) (tokens : (lx.scan first rest).tokens = []) :
    lx.read errors = (lx.after (lx.scan first rest)).read (errors ++ (lx.scan first rest).errors) := by
  rw [read]
  split
  · rename_i heq
    cases ahead.symm.trans heq
  · rename_i heq
    cases ahead.symm.trans heq
    simp only [tokens]

theorem read_of_scan_cons {t : Token} {ts : List Token} (ahead : lx.cursor.ahead = first :: rest)
    (tokens : (lx.scan first rest).tokens = t :: ts) :
    lx.read errors = (⟨t, errors ++ (lx.scan first rest).errors⟩, lx.after (lx.scan first rest)) := by
  rw [read]
  split
  · rename_i heq
    cases ahead.symm.trans heq
  · rename_i heq
    cases ahead.symm.trans heq
    simp only [tokens]

end Read

/-- What was wrong before the text ahead comes before all that is wrong with it. -/
theorem read_append (lx : Lexer) (before errors : List LexError) :
    lx.read (before ++ errors) =
      (⟨(lx.read errors).1.token, before ++ (lx.read errors).1.errors⟩, (lx.read errors).2) := by
  fun_induction read lx errors with
  | case1 lx errors ahead lexed rest hend => rw [read_of_ahead_nil ahead, hend, List.append_assoc]
  | case2 lx errors c rest ahead s tokens ih =>
    rw [read_of_scan_nil ahead tokens, List.append_assoc]
    exact ih
  | case3 lx errors c rest ahead s token more tokens =>
    rw [read_of_scan_cons ahead tokens, List.append_assoc]

theorem next_of_pending_nil (h : lx.pending = []) : lx.next = lx.read [] := by
  unfold next
  rw [h]

theorem scan_kind_ne_eof {first : Char} {rest : List Char} (ahead : lx.cursor.ahead = first :: rest) :
    ∀ t ∈ (lx.scan first rest).tokens, t.kind ≠ .eof :=
  (scan_lays ahead fun _ he => he).kind_ne_eof

theorem next_of_ahead_nil (pending : lx.pending = []) (ahead : lx.cursor.ahead = []) : lx.next = lx.atEnd := by
  rw [next_of_pending_nil pending, read_of_ahead_nil ahead, List.nil_append]

theorem next_of_scan_nil {first : Char} {rest : List Char} (pending : lx.pending = [])
    (ahead : lx.cursor.ahead = first :: rest) (tokens : (lx.scan first rest).tokens = []) :
    lx.next = (lx.after (lx.scan first rest)).read (lx.scan first rest).errors := by
  rw [next_of_pending_nil pending, read_of_scan_nil ahead tokens, List.nil_append]

theorem next_of_scan_cons {first : Char} {rest : List Char} {t : Token} {ts : List Token}
    (pending : lx.pending = []) (ahead : lx.cursor.ahead = first :: rest)
    (tokens : (lx.scan first rest).tokens = t :: ts) :
    lx.next = (⟨t, (lx.scan first rest).errors⟩, lx.after (lx.scan first rest)) := by
  rw [next_of_pending_nil pending, read_of_scan_cons ahead tokens, List.nil_append]

/-- A look at the text gives its tokens and errors before those of the text behind it. -/
theorem stream_scan {first : Char} {rest : List Char} (pending : lx.pending = [])
    (ahead : lx.cursor.ahead = first :: rest) :
    lx.stream.Puts (lx.scan first rest).tokens (lx.scan first rest).errors
      (lx.after (lx.scan first rest)).settled.stream := by
  have kinds := scan_kind_ne_eof ahead
  cases tokens : (lx.scan first rest).tokens with
  | cons t ts =>
    have hnext := next_of_scan_cons pending ahead tokens
    rw [tokens] at kinds
    generalize lx.scan first rest = s at hnext tokens ⊢
    obtain ⟨ht, hts⟩ := List.forall_mem_cons.mp kinds
    have now := stream_puts hnext ht
    have waiting : (lx.after s).stream.Puts ts [] (lx.after s).settled.stream :=
      stream_pending (by rw [after, tokens, List.tail_cons]) hts
    constructor
    · rw [now.tokens, waiting.tokens]
      rfl
    · rw [now.errors, waiting.errors]
      rfl
  | nil =>
    have hnext := next_of_scan_nil pending ahead tokens
    generalize lx.scan first rest = s at hnext tokens ⊢
    have hpending : (lx.after s).pending = [] := by rw [after, tokens, List.tail_nil]
    rw [settled_eq hpending]
    apply stream_puts_errors
    rw [hnext, next_of_pending_nil hpending]
    exact (congrArg _ (List.append_nil _).symm).trans (read_append _ _ _)

/-- At the end of the text outside holes nothing is left. -/
theorem stream_end (pending : lx.pending = []) (ahead : lx.cursor.ahead = []) (hole : lx.hole = none) :
    lx.stream.toList = [] ∧ lx.stream.errors = [] := by
  have hnext : lx.next = (⟨.bare .eof lx.endRange, []⟩, lx) := by
    rw [next_of_ahead_nil pending ahead, atEnd, hole]
  exact stream_eq_of_eof hnext rfl

/-- At the end of the text an open hole is closed, and that is reported. -/
theorem stream_closing {braces : Nat} (pending : lx.pending = []) (ahead : lx.cursor.ahead = [])
    (hole : lx.hole = some braces) :
    lx.stream.toList = [.bare .templateClose lx.endRange] ∧
      lx.stream.errors = [⟨.unterminated .hole, lx.endRange⟩] := by
  have hnext : lx.next =
      (⟨.bare .templateClose lx.endRange, [⟨.unterminated .hole, lx.endRange⟩]⟩, { lx with hole := none }) := by
    rw [next_of_ahead_nil pending ahead, atEnd, hole]
  have closing := stream_puts hnext fun h => by cases h
  obtain ⟨hlist, herrors⟩ : (Lexer.stream { lx with hole := none }).toList = [] ∧
      (Lexer.stream { lx with hole := none }).errors = [] := stream_end pending ahead rfl
  exact ⟨by rw [closing.tokens, hlist]; rfl, by rw [closing.errors, herrors]; rfl⟩

/-! ### The whole text -/

theorem stream_lays (lx : Lexer) (pending : lx.pending = []) (on : lx.spot.On lx.source)
    {logged : List LexError} (reported : ∀ e ∈ lx.stream.errors, e ∈ logged) :
    Lays lx.source logged lx.spot lx.stream.toList ⟨.code, lx.source.length, []⟩ := by
  cases ahead : lx.cursor.ahead with
  | nil =>
    have hpos : lx.source.length = lx.cursor.pos := by
      obtain ⟨behind, hchars, hpos⟩ := on
      rw [lx.source.length_eq, hchars, spot, ahead, List.append_nil, hpos]
      rfl
    cases hole : lx.hole with
    | none =>
      rw [(stream_end pending ahead hole).1, spot, hole, ahead, hpos]
      exact .nil
    | some braces =>
      obtain ⟨hlist, herrors⟩ := stream_closing pending ahead hole
      rw [herrors] at reported
      rw [hlist, spot, hole, ahead]
      refine .cut rfl ?_ (reported _ List.mem_cons_self) ?_
      · rw [← hpos]
        rfl
      · rw [hpos]
        exact .nil
  | cons first rest =>
    have puts := stream_scan pending ahead
    rw [puts.errors, List.forall_mem_append] at reported
    have now := scan_lays ahead reported.1
    have later := stream_lays (lx.after (lx.scan first rest)).settled rfl ?_ reported.2
    · rw [puts.tokens]
      exact now.trans later
    · have hstep : Spot.On ⟨.ofHole lx.hole, lx.cursor.pos, _⟩ lx.source := lx.spot_eq (lx.scan first rest) ▸ on
      exact hstep.step
termination_by lx.cursor.ahead.length
decreasing_by exact ahead_after_lt ahead _

end Lexer

namespace TokenStream

theorem ofSource_lays (source : Source) :
    Lays source (ofSource source).errors ⟨.code, 0, source.chars⟩ (ofSource source).toList
      ⟨.code, source.length, []⟩ :=
  (Lexer.start source).stream_lays rfl ⟨[], rfl, rfl⟩ fun _ he => he

theorem ofSource_ordered (source : Source) :
    (∀ t ∈ (ofSource source).toList, t.Stands source 0) ∧
      (ofSource source).toList.Pairwise fun t u => t.range.stop.pos ≤ u.range.start.pos :=
  (ofSource_lays source).ordered ⟨[], rfl, rfl⟩

/-- The tokens of a source stand in order on pieces of its text, and the text is these pieces and gaps
    between them, of which every one that is not blank, a comment or a mark of a template was reported. -/
theorem ofSource_loses_nothing (source : Source) :
    (∀ t ∈ (ofSource source).toList, t.range.source = source.id ∧
      (source.slice? t.range.start.pos t.range.stop.pos).isSome = true) ∧
    (ofSource source).toList.Pairwise (fun t u => t.range.stop.pos ≤ u.range.start.pos) ∧
    Lays source (ofSource source).errors ⟨.code, 0, source.chars⟩ (ofSource source).toList
      ⟨.code, source.length, []⟩ := by
  obtain ⟨stands, pairs⟩ := ofSource_ordered source
  exact ⟨fun t ht => ⟨(stands t ht).source_eq, (stands t ht).slice⟩, pairs, ofSource_lays source⟩

end TokenStream

end BraceLang
