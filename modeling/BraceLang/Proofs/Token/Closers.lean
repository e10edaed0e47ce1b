import BraceLang.Proofs.Token.Beside
import BraceLang.Proofs.Token.Looks

/-! Texts that differ only in a closer behind them: a bracket that closes, a comma, a semicolon, a colon or the end.
    If nothing is wrong with one of two such texts, the tokens before the closers say the same and both closers
    are read as tokens, unless a comment takes them both in (`Lexer.stream_beside`). Behind a closer at the end
    of a text there is hardly a token left (`Lexer.length_le_of_last`). -/

namespace BraceLang

open Text (byteLength)

/-! ### Closers -/

/-- Whether a token of this kind closes what stands before it. -/
def Kind.closes : Kind → Bool
  | .rParen | .rBracket | .rBrace | .comma | .semi | .colon | .eof => true
  | _ => false

theorem Kind.forall_closes {P : Kind → Prop} :
    (∀ k : Kind, k.closes = true → P k) ↔
      P .rParen ∧ P .rBracket ∧ P .rBrace ∧ P .comma ∧ P .semi ∧ P .colon ∧ P .eof := by
  constructor
  · intro h
    exact ⟨h _ rfl, h _ rfl, h _ rfl, h _ rfl, h _ rfl, h _ rfl, h _ rfl⟩
  · rintro ⟨h1, h2, h3, h4, h5, h6, h7⟩ k hk
    unfold closes at hk
    split at hk <;> first | assumption | cases hk

/-- The lexemes of a closer. The end of the text is not among the tokens. -/
def closing (k : Kind) : List Lexeme := if k = .eof then [] else [.bare k]

theorem closing_of_ne {k : Kind} (h : k ≠ .eof) : closing k = [.bare k] := if_neg h

/-- A closer that is not the end is a symbol of one character. -/
theorem Kind.closer_spelled {k : Kind} (hk : k.closes = true) (hne : k ≠ .eof) :
    k ∈ symbols ∧ ∃ mark, k.text.toList = [mark] := by
  have closers : ∀ k : Kind, k.closes = true → k ≠ .eof → k ∈ symbols ∧ k.text.toList.length = 1 :=
    forall_closes.mpr (by decide)
  obtain ⟨hsymbol, hlength⟩ := closers k hk hne
  exact ⟨hsymbol, List.length_eq_one_iff.mp hlength⟩

theorem Kind.closer_subset {k : Kind} (hk : k.closes = true) : k.text.toList ⊆ closerMarks := by
  have closers : ∀ k : Kind, k.closes = true → k.text.toList ⊆ closerMarks := forall_closes.mpr (by decide)
  exact closers k hk

/-- The text `w` and a closer behind it, after a blank. -/
def closedBy (w : String) (k : Kind) : String := w ++ " " ++ k.text

namespace TokenStream

/-- The tokens of a text, none of which starts behind an edge but a closer that stands one byte behind it. The
    others say `ls`, and nothing is wrong. -/
structure Closes (stream : TokenStream) (edge : Nat) (ls : List Lexeme) (k : Kind) : Prop where
  tokens : ∃ ts us, stream.toList = ts ++ us ∧ ts.map Token.lexeme = ls ∧ us.map Token.lexeme = closing k ∧
    (∀ t ∈ ts, t.range.start.pos ≤ edge) ∧ ∀ t ∈ us, t.range.start.pos = edge + 1
  errors : stream.errors = []

theorem Closes.puts {stream later : TokenStream} {edge : Nat} {ls : List Lexeme} {k : Kind} {ts : List Token}
    (puts : stream.Puts ts [] later) (hts : ∀ t ∈ ts, t.range.start.pos ≤ edge) (h : later.Closes edge ls k) :
    stream.Closes edge (ts.map Token.lexeme ++ ls) k := by
  obtain ⟨⟨vs, us, hlater, rfl, hus, hvs, hedge⟩, herrors⟩ := h
  refine ⟨⟨ts ++ vs, us, ?_, List.map_append, hus, List.forall_mem_append.mpr ⟨hts, hvs⟩, hedge⟩, ?_⟩
  · rw [puts.tokens, hlater, List.append_assoc]
  · rw [puts.errors, herrors]
    rfl

theorem Closes.says {stream : TokenStream} {edge : Nat} {ls : List Lexeme} {k : Kind}
    (h : stream.Closes edge ls k) : stream.Says (ls ++ closing k) := by
  obtain ⟨⟨ts, us, htokens, rfl, hclosing, -, -⟩, herrors⟩ := h
  refine says_iff.mpr ⟨?_, herrors⟩
  rw [htokens, List.map_append, hclosing]

end TokenStream

/-- What is laid out stands before the place where it ends. -/
theorem Lays.stop_le {source : Source} {logged : List LexError} {a b : Spot} {ts : List Token}
    (h : Lays source logged a ts b) (on : a.On source) : a.pos ≤ b.pos ∧ ∀ t ∈ ts, t.range.stop.pos ≤ b.pos := by
  induction h with
  | nil => exact ⟨Nat.le_refl _, List.forall_mem_nil _⟩
  | gap _ _ ih =>
    obtain ⟨hpos, hts⟩ := ih on.step
    exact ⟨Nat.le_of_add_right_le hpos, hts⟩
  | token _ hrange _ ih =>
    obtain ⟨hpos, hts⟩ := ih on.step
    obtain ⟨-, hstop⟩ := Token.stands_of_range on hrange
    exact ⟨Nat.le_of_add_right_le hpos, List.forall_mem_cons.mpr ⟨hstop ▸ hpos, hts⟩⟩
  | cut _ hrange _ _ ih =>
    obtain ⟨hpos, hts⟩ := ih on
    have on' : Spot.On ⟨.code, _, [] ++ []⟩ source := on
    obtain ⟨-, hstop⟩ := Token.stands_of_range on' hrange
    exact ⟨hpos, List.forall_mem_cons.mpr ⟨hstop ▸ hpos, hts⟩⟩

namespace Lexer

variable {lx lx' : Lexer} {first : Char} {rest w : List Char} {c d k : Kind} {edge : Nat} {ls : List Lexeme}

/-! ### One lexer -/

theorem on_after (on : lx.spot.On lx.source) (s : Scan) :
    (lx.after s).settled.spot.On (lx.after s).settled.source := by
  have hstep : Spot.On ⟨.ofHole lx.hole, lx.cursor.pos, _⟩ lx.source := lx.spot_eq s ▸ on
  exact hstep.step

/-- A look before the edge, and then the text behind it. -/
theorem closes_of_scan (pending : lx.pending = []) (ahead : lx.cursor.ahead = first :: rest)
    (on : lx.spot.On lx.source) (clean : (lx.scan first rest).errors = [])
    (hedge : (lx.after (lx.scan first rest)).cursor.pos ≤ edge)
    (later : (lx.after (lx.scan first rest)).settled.stream.Closes edge ls k) :
    lx.stream.Closes edge ((lx.scan first rest).tokens.map Token.lexeme ++ ls) k := by
  have puts := stream_scan pending ahead
  rw [clean] at puts
  refine .puts puts (fun t ht => ?_) later
  have lays := scan_lays ahead fun e (he : e ∈ (lx.scan first rest).errors) => he
  have hstop : t.range.stop.pos ≤ (lx.after (lx.scan first rest)).cursor.pos := (lays.stop_le on).2 t ht
  exact ((lays.ordered on).1 t ht).start_le_stop.trans (hstop.trans hedge)

/-- At the end of the text nothing is left but the end. -/
theorem closes_eof (pending : lx.pending = []) (ahead : lx.cursor.ahead = []) (hole : lx.hole = none) :
    lx.stream.Closes edge [] .eof := by
  obtain ⟨hlist, herrors⟩ := stream_end pending ahead hole
  refine ⟨⟨[], [], hlist, rfl, rfl, List.forall_mem_nil _, List.forall_mem_nil _⟩, herrors⟩

/-- One look at a closer takes it for a symbol, and then the text ends. -/
theorem scan_closer (hk : k.closes = true) (hne : k ≠ .eof) (ahead : lx.cursor.ahead = k.text.toList) :
    ∃ mark, lx.cursor.ahead = [mark] ∧ lx.scan mark [] = lx.symbol k [] := by
  obtain ⟨hsymbol, mark, htext⟩ := Kind.closer_spelled hk hne
  exact ⟨mark, ahead.trans htext, lx.scan_symbol hsymbol htext fun _ h => by cases h⟩

theorem ahead_after_last {mark : Char} (ahead : lx.cursor.ahead = [mark]) (s : Scan) :
    (lx.after s).settled.cursor.ahead = [] := by
  show lx.cursor.ahead.drop (s.length + 1) = []
  rw [ahead, List.drop_succ_cons, List.drop_nil]

/-- A closer and the end. -/
theorem closes_closer (hk : k.closes = true) (pending : lx.pending = []) (ahead : lx.cursor.ahead = k.text.toList)
    (hole : lx.hole = none) (on : lx.spot.On lx.source) (hedge : lx.cursor.pos = edge + 1) :
    lx.stream.Closes edge [] k := by
  by_cases hne : k = .eof
  · subst hne
    exact closes_eof pending ahead hole
  obtain ⟨mark, hmark, hscan⟩ := scan_closer hk hne ahead
  rw [lx.symbol_of_no_hole [] hole] at hscan
  have puts := stream_scan pending hmark
  rw [hscan] at puts
  obtain ⟨hlist, herrors⟩ := stream_end rfl (ahead_after_last hmark (lx.emit _ _ [])) hole
  have hpos : lx.cursor.pos ≤ lx.source.length := by
    obtain ⟨behind, hchars, hpos⟩ := on
    rw [lx.source.length_eq, hchars, Text.byteLength_append, hpos]
    exact Nat.le_add_right _ _
  refine ⟨⟨[], _, puts.tokens.trans (by rw [hlist, List.append_nil]; rfl), rfl, ?_, List.forall_mem_nil _, ?_⟩, ?_⟩
  · rw [closing_of_ne hne]
    rfl
  · rintro t (_ | ⟨_, ⟨⟩⟩)
    exact (Source.range_start_pos hpos).trans hedge
  · rw [puts.errors, herrors]
    rfl

/-- In a hole of a template the text does not end well. -/
theorem hole_eq_none (hk : k.closes = true) (pending : lx.pending = [])
    (ahead : lx.cursor.ahead = k.text.toList) (clean : lx.stream.errors = []) : lx.hole = none := by
  have ended {lx : Lexer} (pending : lx.pending = []) (ahead : lx.cursor.ahead = [])
      (clean : lx.stream.errors = []) : lx.hole = none := by
    cases hole : lx.hole with
    | none => rfl
    | some braces =>
      rw [(stream_closing pending ahead hole).2] at clean
      cases clean
  by_cases hne : k = .eof
  · subst hne
    exact ended pending ahead clean
  obtain ⟨mark, hmark, hscan⟩ := scan_closer hk hne ahead
  have puts := stream_scan pending hmark
  rw [puts.errors, hscan, List.append_eq_nil_iff] at clean
  have hlater := ended rfl (ahead_after_last hmark _) clean.2
  cases hole : lx.hole with
  | none => rfl
  | some braces =>
    cases hafter : k.holeAfter? (some braces) with
    | some hole' =>
      rw [symbol_of_holeAfter? (hole ▸ hafter)] at hlater
      obtain rfl : hole' = none := hlater
      rw [Kind.holeAfter?_some] at hafter
      obtain ⟨_, -, hsome⟩ := Option.map_eq_some_iff.mp hafter
      cases hsome
    | none =>
      obtain ⟨rfl, hzero⟩ := Kind.holeAfter?_eq_none hafter
      rw [symbol_closing (hole.trans hzero)] at clean
      cases clean.1

theorem hole_eq_none_of_skip {n : Nat} (hk : k.closes = true) (ahead : lx.cursor.ahead.drop (n + 1) = k.text.toList)
    (clean : (lx.after (lx.skip n [])).settled.stream.errors = []) : lx.hole = none := by
  have hole : (lx.after (lx.skip n [])).settled.hole = none := hole_eq_none hk rfl ahead clean
  exact hole

/-- A look that takes up to the blank before a closer gives no token. -/
theorem closes_across (cs : List Char) (hk : k.closes = true) (pending : lx.pending = [])
    (ahead : lx.cursor.ahead = first :: rest) (hrest : first :: rest = cs ++ ' ' :: k.text.toList)
    (hscan : lx.scan first rest = lx.skip cs.length []) (hole : lx.hole = none) (on : lx.spot.On lx.source)
    (hedge : lx.cursor.pos + byteLength cs = edge) : lx.stream.Closes edge [] k := by
  have puts := stream_scan pending ahead
  rw [hscan] at puts
  have hahead : (lx.after (lx.skip cs.length [])).settled.cursor.ahead = k.text.toList := by
    show lx.cursor.ahead.drop (cs.length + 1) = _
    rw [ahead, hrest, List.drop_length_add_append]
    rfl
  have hpos : (lx.after (lx.skip cs.length [])).settled.cursor.pos = edge + 1 := by
    show lx.cursor.pos + byteLength (lx.cursor.ahead.take (cs.length + 1)) = _
    rw [ahead, hrest, List.take_length_add_append, Text.byteLength_append, ← Nat.add_assoc, hedge]
    rfl
  exact .puts puts (List.forall_mem_nil _) (closes_closer hk rfl hahead hole (on_after on _) hpos)

/-- A look that takes all that is left gives no token. -/
theorem closes_comment (pending : lx.pending = []) (ahead : lx.cursor.ahead = first :: rest)
    (hscan : lx.scan first rest = lx.skip rest.length []) (hole : lx.hole = none) :
    lx.stream.Closes edge [] .eof := by
  have puts := stream_scan pending ahead
  rw [hscan] at puts
  have hahead : (lx.after (lx.skip rest.length [])).settled.cursor.ahead = [] := by
    show lx.cursor.ahead.drop (rest.length + 1) = []
    rw [ahead, List.drop_succ_cons, List.drop_length]
  exact .puts puts (List.forall_mem_nil _) (closes_eof rfl hahead hole)

/-! ### A closer at the end -/

/-- If a look gives a closer, it gives nothing else, and the closer stands at its start. -/
def Lone (lx : Lexer) (s : Scan) : Prop :=
  ∀ t ∈ s.tokens, t.kind.closes = true → s.tokens = [t] ∧ t.range.start.pos ≤ lx.cursor.pos

theorem templateText_closes (resumed : Bool) :
    ∀ t ∈ (lx.templateText rest resumed).tokens, t.kind.closes = false := by
  have text (cs : List Char) : (lx.segmentToken cs).kind.closes = false := rfl
  have close (range : Range) : (Token.bare .templateClose range).kind.closes = false := rfl
  simp only [templateText]
  repeat' split
  all_goals simp [text, close]

theorem template_closes : ∀ t ∈ (lx.template rest).tokens, t.kind.closes = false := by
  have text (cs : List Char) : (lx.segmentToken cs).kind.closes = false := rfl
  have mark (range : Range) : (Token.bare .templateOpen range).kind.closes = false ∧
      (Token.bare .templateClose range).kind.closes = false := ⟨rfl, rfl⟩
  unfold template
  split
  · unfold nestedTemplate
    split <;> simp [text, mark]
  · exact List.forall_mem_cons.mpr ⟨(mark _).1, templateText_closes false⟩

theorem lone_of_kinds {s : Scan} (h : ∀ t ∈ s.tokens, t.kind.closes = false) : lx.Lone s := by
  intro t ht hk
  rw [h t ht] at hk
  cases hk

theorem lone_singleton {s : Scan} {t : Token} {n : Nat} (h : s.tokens = [t]) (hrange : t.range = lx.rangeAt 0 n) :
    lx.Lone s := by
  rw [Lone, h, List.forall_mem_singleton, hrange]
  exact fun _ => ⟨rfl, Nat.min_le_left _ _⟩

theorem symbol_lone : lx.Lone (lx.symbol k rest) := by
  simp only [symbol]
  split
  · exact lone_singleton rfl rfl
  · exact lone_of_kinds (templateText_closes true)
  · exact lone_singleton rfl rfl
  · exact lone_singleton rfl rfl

theorem scan_lone : lx.Lone (lx.scan first rest) := by
  rcases lx.scan_cases first rest with simple | ⟨-, hscan⟩ | ⟨k, -, hscan⟩
  · obtain hnil | ⟨t, n, htokens, -, hrange⟩ := simple.tokens
    · rw [Lone, hnil]
      exact List.forall_mem_nil _
    · exact lone_singleton htokens hrange
  · rw [hscan]
    exact lone_of_kinds template_closes
  · rw [hscan]
    exact symbol_lone

theorem stream_length_le (pending : lx.pending = []) (ahead : lx.cursor.ahead = []) :
    lx.stream.toList.length ≤ 1 := by
  cases hole : lx.hole with
  | none =>
    rw [(stream_end pending ahead hole).1]
    exact Nat.zero_le 1
  | some braces =>
    rw [(stream_closing pending ahead hole).1]
    exact Nat.le_refl 1

/-- After a look at the last byte of the text nothing is ahead. -/
theorem ahead_after_eq_nil (ahead : lx.cursor.ahead = first :: rest) (on : lx.spot.On lx.source) (s : Scan)
    (hlast : lx.source.length ≤ lx.cursor.pos + 1) : (lx.after s).settled.cursor.ahead = [] := by
  obtain ⟨behind, hchars, hpos⟩ := on_after on s
  have hlength : lx.source.length = byteLength (behind ++ (lx.after s).settled.cursor.ahead) := by
    rw [lx.source.length_eq]
    exact congrArg byteLength hchars
  have hafter : (lx.after s).settled.cursor.pos = lx.cursor.pos + byteLength (lx.cursor.ahead.take (s.length + 1)) := rfl
  have hfirst := first.utf8Size_pos
  have hpos : byteLength behind = (lx.after s).settled.cursor.pos := hpos
  rw [ahead, List.take_succ_cons, Text.byteLength_cons] at hafter
  rw [Text.byteLength_append, hpos, hafter] at hlength
  cases hrest : (lx.after s).settled.cursor.ahead with
  | nil => rfl
  | cons c cs =>
    have hnext := c.utf8Size_pos
    rw [hrest, Text.byteLength_cons] at hlength
    omega

/-- Behind a closer that is the last byte of the text at most one token is left, for the end of a hole. -/
theorem length_le_of_last {lx : Lexer} {before after : List Token} {t : Token} (pending : lx.pending = [])
    (on : lx.spot.On lx.source) (h : lx.stream.toList = before ++ t :: after) (hk : t.kind.closes = true)
    (hlast : lx.source.length ≤ t.range.start.pos + 1) : after.length ≤ 1 := by
  cases ahead : lx.cursor.ahead with
  | nil =>
    have hlength := stream_length_le pending ahead
    rw [h, List.length_append, List.length_cons] at hlength
    omega
  | cons first rest =>
    rw [(stream_scan pending ahead).tokens] at h
    have later (before : List Token)
        (h : (lx.after (lx.scan first rest)).settled.stream.toList = before ++ t :: after) : after.length ≤ 1 :=
      length_le_of_last rfl (on_after on _) h hk hlast
    obtain ⟨more, hbefore, hlater⟩ | ⟨more, htokens, hlater⟩ := List.append_eq_append_iff.mp h
    · exact later more hlater
    · cases more with
      | nil => exact later [] hlater.symm
      | cons u more =>
        rw [List.cons_append] at hlater
        obtain ⟨rfl, hafter⟩ := List.cons.inj hlater
        obtain ⟨hlone, hstart⟩ := scan_lone t (htokens ▸ List.mem_append_right _ List.mem_cons_self) hk
        have hmore : more = [] := by
          have hlength := congrArg List.length (htokens.symm.trans hlone)
          rw [List.length_append, List.length_cons, List.length_singleton] at hlength
          exact List.eq_nil_of_length_eq_zero (by omega)
        rw [hafter, hmore, List.nil_append]
        exact stream_length_le rfl (ahead_after_eq_nil ahead on _ (hlast.trans (Nat.succ_le_succ hstart)))
termination_by lx.cursor.ahead.length
decreasing_by exact ahead_after_lt ahead _

/-! ### Two lexers -/

theorem Beside.after (beside : lx.Beside lx') {s s' : Scan}
    (taken : lx'.cursor.ahead.take (s'.length + 1) = lx.cursor.ahead.take (s.length + 1)) (hole : s'.hole = s.hole) :
    (lx.after s).settled.Beside (lx'.after s').settled where
  pos := congrArg₂ (· + byteLength ·) beside.pos taken
  behind := congrArg₂ List.reverseAux taken beside.behind
  hole := hole

/-- Where nothing is wrong with the text before one lexer, two lexers beside each other read the same tokens up to
    the closers. These are read too, or both stand in a comment. -/
theorem stream_beside {lx lx' : Lexer} {w : List Char} (hc : c.closes = true) (hd : d.closes = true) (beside : lx.Beside lx')
    (pending : lx.pending = []) (pending' : lx'.pending = [])
    (ahead : lx.cursor.ahead = w ++ ' ' :: c.text.toList) (ahead' : lx'.cursor.ahead = w ++ ' ' :: d.text.toList)
    (on : lx.spot.On lx.source) (on' : lx'.spot.On lx'.source) (hedge : lx.cursor.pos + byteLength w = edge)
    (clean : lx.stream.errors = []) :
    ∃ ls k k', lx.stream.Closes edge ls k ∧ lx'.stream.Closes edge ls k' ∧
      (k = c ∧ k' = d ∨ k = .eof ∧ k' = .eof) := by
  have hedge' : lx'.cursor.pos + byteLength w = edge := beside.pos ▸ hedge
  cases w with
  | nil =>
    have scan {k : Kind} (hk : k.closes = true) (lx : Lexer) : lx.scan ' ' k.text.toList = lx.skip 0 [] := by
      rw [scan_blanks _ _ rfl, takeWhile_isBlank_closer (Kind.closer_subset hk)]
      rfl
    have puts := stream_scan pending ahead
    rw [puts.errors, scan hc, List.append_eq_nil_iff] at clean
    have hole := hole_eq_none_of_skip hc (congrArg (List.drop 1) ahead) clean.2
    refine ⟨[], c, d, ?_, ?_, .inl ⟨rfl, rfl⟩⟩
    · exact closes_across [] hc pending ahead rfl (scan hc lx) hole on hedge
    · exact closes_across [] hd pending' ahead' rfl (scan hd lx') (beside.hole.trans hole) on' hedge'
  | cons first w =>
    have puts := stream_scan pending ahead
    rw [puts.errors, List.append_eq_nil_iff] at clean
    have look := scan_beside beside (Kind.closer_subset hc) (Kind.closer_subset hd) clean.1
    generalize hs : lx.scan first (w ++ ' ' :: c.text.toList) = s at look clean
    generalize hs' : lx'.scan first (w ++ ' ' :: d.text.toList) = s' at look
    cases look with
    | blanks =>
      have hdrop : lx.cursor.ahead.drop (w.length + 1 + 1) = c.text.toList := by
        rw [ahead, List.cons_append, List.drop_succ_cons, List.drop_length_add_append]
        rfl
      have hole := hole_eq_none_of_skip hc hdrop clean.2
      refine ⟨[], c, d, ?_, ?_, .inl ⟨rfl, rfl⟩⟩
      · exact closes_across (first :: w) hc pending ahead rfl hs hole on hedge
      · exact closes_across (first :: w) hd pending' ahead' rfl hs' (beside.hole.trans hole) on' hedge'
    | comment =>
      have hdrop : lx.cursor.ahead.drop ((w ++ ' ' :: c.text.toList).length + 1) = Kind.eof.text.toList := by
        rw [ahead, List.cons_append, List.drop_succ_cons, List.drop_length]
        rfl
      have hole := hole_eq_none_of_skip rfl hdrop clean.2
      refine ⟨[], .eof, .eof, ?_, ?_, .inr ⟨rfl, rfl⟩⟩
      · exact closes_comment pending ahead hs hole
      · exact closes_comment pending' ahead' hs' (beside.hole.trans hole)
    | inside alike =>
      have drop (z : List Char) : (first :: w ++ z).drop (s.length + 1) = w.drop s.length ++ z := by
        rw [List.cons_append, List.drop_succ_cons, List.drop_append_of_le_length alike.inside]
      have take (z : List Char) : (first :: w ++ z).take (s.length + 1) = first :: w.take s.length := by
        rw [List.cons_append, List.take_succ_cons, List.take_append_of_le_length alike.inside]
      have hpos : (lx.after s).settled.cursor.pos + byteLength (w.drop s.length) = edge := by
        show lx.cursor.pos + byteLength (lx.cursor.ahead.take (s.length + 1)) + _ = _
        rw [ahead, take, Nat.add_assoc, ← Text.byteLength_append, List.cons_append, List.take_append_drop, hedge]
      have beside' : (lx.after s).settled.Beside (lx'.after s').settled := by
        refine beside.after ?_ alike.hole
        rw [ahead, ahead', alike.length, take, take]
      obtain ⟨ls, k, k', closes, closes', hkinds⟩ := stream_beside hc hd beside' rfl rfl
        (by show lx.cursor.ahead.drop (s.length + 1) = _; rw [ahead, drop])
        (by show lx'.cursor.ahead.drop (s'.length + 1) = _; rw [ahead', alike.length, drop])
        (on_after on s) (on_after on' s') hpos clean.2
      refine ⟨s.tokens.map Token.lexeme ++ ls, k, k', ?_, ?_, hkinds⟩
      · subst hs
        exact closes_of_scan pending ahead on clean.1 (Nat.le_of_add_right_le hpos.le) closes
      · rw [← alike.lexemes]
        subst hs'
        exact closes_of_scan pending' ahead' on' alike.errors
          (Nat.le_of_add_right_le (beside'.pos ▸ hpos).le) closes'
termination_by lx.cursor.ahead.length
decreasing_by exact ahead_after_lt ahead _

end Lexer

end BraceLang
