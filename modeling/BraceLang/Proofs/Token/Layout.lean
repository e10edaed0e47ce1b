import BraceLang.Proofs.Token.Lexeme
import Mathlib.Data.List.TakeWhile

/-! How a text is laid out: as tokens, each with the piece of text it was read from, and as gaps between
    them that give no token (`Lays`). A gap is made of blanks, comments, the marks around the holes of
    templates and what was reported as unreadable (`Gap`).

    Main statement: one look at the text lays out just the characters that it takes
    (`Lexer.scan_lays`). -/

namespace BraceLang

open Text (byteLength)

/-! ### Comments -/

/-- Text that closes `depth` comments and the one around them, and ends there. -/
inductive Comment : Nat → List Char → Prop where
  | close : Comment 0 ['*', '/']
  | opened {depth : Nat} {cs : List Char} (h : Comment (depth + 1) cs) : Comment depth ('/' :: '*' :: cs)
  | closed {depth : Nat} {cs : List Char} (h : Comment depth cs) : Comment (depth + 1) ('*' :: '/' :: cs)
  | other {depth : Nat} {c : Char} {cs : List Char} (opens : ¬['/', '*'] <+: c :: cs)
    (closes : ¬['*', '/'] <+: c :: cs) (h : Comment depth cs) : Comment depth (c :: cs)

theorem comment_of_blockCommentLength? {depth n : Nat} {cs : List Char}
    (h : blockCommentLength? depth cs = some n) :
    ∃ closing rest, cs = closing ++ rest ∧ closing.length = n ∧ Comment depth closing := by
  fun_induction blockCommentLength? depth cs generalizing n with
  | case1 depth cs ih =>
    obtain ⟨m, hm, rfl⟩ := Option.map_eq_some_iff.mp h
    obtain ⟨closing, rest, rfl, rfl, hclosing⟩ := ih hm
    exact ⟨_, rest, rfl, rfl, .opened hclosing⟩
  | case2 cs =>
    cases h
    exact ⟨['*', '/'], cs, rfl, rfl, .close⟩
  | case3 depth cs ih =>
    obtain ⟨m, hm, rfl⟩ := Option.map_eq_some_iff.mp h
    obtain ⟨closing, rest, rfl, rfl, hclosing⟩ := ih hm
    exact ⟨_, rest, rfl, rfl, .closed hclosing⟩
  | case4 depth c cs hopens hclose hclosed ih =>
    obtain ⟨m, hm, rfl⟩ := Option.map_eq_some_iff.mp h
    obtain ⟨closing, rest, rfl, rfl, hclosing⟩ := ih hm
    refine ⟨c :: closing, rest, rfl, rfl, .other ?_ ?_ hclosing⟩
    · rintro ⟨more, hmore⟩
      cases hmore
      exact hopens _ rfl rfl
    · rintro ⟨more, hmore⟩
      cases hmore
      cases depth with
      | zero => exact hclose _ rfl rfl rfl
      | succ depth => exact hclosed depth _ rfl rfl rfl
  | case5 => cases h

theorem Comment.two_le {depth : Nat} {cs : List Char} (h : Comment depth cs) : 2 ≤ cs.length := by
  induction h with
  | close => exact Nat.le_refl 2
  | opened _ _ | closed _ _ =>
    rw [List.length_cons, List.length_cons]
    omega
  | other _ _ _ ih => exact Nat.le_succ_of_le ih

theorem Comment.ends_with_slash {depth : Nat} {cs : List Char} (h : Comment depth cs) :
    ∃ before, cs = before ++ ['/'] := by
  induction h with
  | close => exact ⟨['*'], rfl⟩
  | opened _ ih =>
    obtain ⟨before, rfl⟩ := ih
    exact ⟨'/' :: '*' :: before, rfl⟩
  | closed _ ih =>
    obtain ⟨before, rfl⟩ := ih
    exact ⟨'*' :: '/' :: before, rfl⟩
  | other _ _ _ ih =>
    obtain ⟨before, rfl⟩ := ih
    exact ⟨_ :: before, rfl⟩

theorem Comment.blockCommentLength? {depth : Nat} {closing : List Char} (h : Comment depth closing)
    (rest : List Char) : blockCommentLength? depth (closing ++ rest) = some closing.length := by
  induction h with
  | close => simp [BraceLang.blockCommentLength?]
  | opened _ ih => simp [BraceLang.blockCommentLength?, ih]
  | closed _ ih => simp [BraceLang.blockCommentLength?, ih]
  | @other depth c cs opens closes h ih =>
    -- whether a mark stands here is decided inside the comment, which goes on
    have inside (d : Char) {more : List Char} (heq : cs ++ rest = d :: more) : [c, d] <+: c :: cs := by
      cases cs with
      | nil => exact absurd h.two_le (by decide)
      | cons e cs =>
        cases heq
        exact ⟨cs, rfl⟩
    rw [List.cons_append, BraceLang.blockCommentLength?.eq_4, ih]
    · rfl
    · rintro more rfl heq
      exact opens (inside _ heq)
    · rintro more - rfl heq
      exact closes (inside _ heq)
    · rintro _ more - rfl heq
      exact closes (inside _ heq)

/-! ### Gaps -/

/-- What a place in the text is part of. -/
inductive Setting where
  | code
  /-- The text of a template. -/
  | text
  /-- The hole of a template, with the number of braces open in it. -/
  | hole (braces : Nat)
deriving DecidableEq

/-- The setting that a lexer stands in between two looks at the text. -/
def Setting.ofHole : Option Nat → Setting
  | none => .code
  | some braces => .hole braces

/-- Whether a cause is that a character is unreadable, or that a character literal is broken. Nothing
    stands for what is marked with it. -/
def LexCause.drops : LexCause → Bool
  | unexpectedChar _ | emptyChar | unterminated .charLiteral => true
  | _ => false

/-- Characters at the offset `pos`, before `rest`, that give no token, with the settings before and after
    them. What is marked by an error has been logged. -/
inductive Gap (source : Source) (logged : List LexError) (pos : Nat) (rest : List Char) :
    Setting → List Char → Setting → Prop where
  | blanks {s : Setting} {cs : List Char} (hs : s ≠ .text) (h : ∀ c ∈ cs, isBlank c = true) :
    Gap source logged pos rest s cs s
  /-- A comment up to the end of its line. -/
  | lineComment {s : Setting} {cs : List Char} (hs : s ≠ .text) (h : '\n' ∉ cs)
    (stop : ∀ c ∈ rest.head?, c = '\n') : Gap source logged pos rest s ('/' :: '/' :: cs) s
  | blockComment {s : Setting} {cs : List Char} (hs : s ≠ .text) (h : Comment 0 cs) :
    Gap source logged pos rest s ('/' :: '*' :: cs) s
  /-- A comment that nothing closes takes in the rest of the text, and its opening is reported. -/
  | openComment {s : Setting} {cs : List Char} (hs : s ≠ .text)
    (h : ∀ closing, closing <+: cs → ¬Comment 0 closing) (stop : rest = [])
    (reported : ⟨.unterminated .blockComment, source.range pos (pos + byteLength ['/', '*'])⟩ ∈ logged) :
    Gap source logged pos rest s ('/' :: '*' :: cs) s
  /-- The opening of a hole. -/
  | opening : Gap source logged pos rest .text ['$', '\x7b'] (.hole 0)
  /-- The brace that closes a hole. -/
  | closing : Gap source logged pos rest (.hole 0) ['\x7d'] .text
  /-- What an error marks as unreadable, neither more nor less. -/
  | fault {s : Setting} {cs : List Char} {e : LexError} (hs : s ≠ .text) (he : e ∈ logged)
    (cause : e.cause.drops = true) (marked : e.range = source.range pos (pos + byteLength cs)) :
    Gap source logged pos rest s cs s

/-- How tokens of a kind lead from one setting to another. -/
inductive Kind.Leads : Setting → Kind → Setting → Prop where
  | plain {k : Kind} (h : k ∉ [.eof, .templateOpen, .templateText, .templateClose]) : Leads .code k .code
  | templateOpen : Leads .code .templateOpen .text
  | templateText : Leads .text .templateText .text
  | templateClose : Leads .text .templateClose .code
  | lBrace {braces : Nat} : Leads (.hole braces) .lBrace (.hole (braces + 1))
  | rBrace {braces : Nat} : Leads (.hole (braces + 1)) .rBrace (.hole braces)
  /-- A template in a hole is read as plain text, so its tokens stay in the hole. -/
  | inHole {braces : Nat} {k : Kind} (h : k ∉ [.eof, .lBrace, .rBrace]) :
    Leads (.hole braces) k (.hole braces)

/-- Whether tokens of a kind stand inside and outside holes and leave either as it is. -/
def Kind.isPlain (k : Kind) : Bool :=
  k ∉ [.eof, .templateOpen, .templateText, .templateClose, .lBrace, .rBrace]

theorem Kind.Leads.of_isPlain {k : Kind} (h : k.isPlain = true) (hole : Option Nat) :
    k.Leads (.ofHole hole) (.ofHole hole) := by
  simp only [isPlain, decide_eq_true_eq, List.mem_cons, List.not_mem_nil, or_false, not_or] at h
  cases hole with
  | none => exact .plain (by simp [h])
  | some braces => exact .inHole (by simp [h])

/-- A place in the text and what it is part of. -/
structure Spot where
  setting : Setting
  pos : Nat
  ahead : List Char

/-- From one place to another, the text is the pieces that the tokens were read from, in order, and gaps
    between them. -/
inductive Lays (source : Source) (logged : List LexError) : Spot → List Token → Spot → Prop where
  | nil {a : Spot} : Lays source logged a [] a
  | gap {s s' : Setting} {pos : Nat} {cs rest : List Char} {ts : List Token} {b : Spot}
    (h : Gap source logged pos rest s cs s')
    (more : Lays source logged ⟨s', pos + byteLength cs, rest⟩ ts b) :
    Lays source logged ⟨s, pos, cs ++ rest⟩ ts b
  | token {s s' : Setting} {pos : Nat} {cs rest : List Char} {t : Token} {ts : List Token} {b : Spot}
    (h : t.kind.Leads s s') (range : t.range = source.range pos (pos + byteLength cs))
    (more : Lays source logged ⟨s', pos + byteLength cs, rest⟩ ts b) :
    Lays source logged ⟨s, pos, cs ++ rest⟩ (t :: ts) b
  /-- A hole that the text ends in is closed by a token without text, and that is reported. -/
  | cut {braces pos : Nat} {t : Token} {ts : List Token} {b : Spot} (kind : t.kind = .templateClose)
    (range : t.range = source.range pos pos) (reported : ⟨.unterminated .hole, t.range⟩ ∈ logged)
    (more : Lays source logged ⟨.code, pos, []⟩ ts b) : Lays source logged ⟨.hole braces, pos, []⟩ (t :: ts) b

namespace Lays
variable {source : Source} {logged : List LexError} {a b c : Spot} {ts us : List Token}

theorem trans (h : Lays source logged a ts b) (h' : Lays source logged b us c) :
    Lays source logged a (ts ++ us) c := by
  induction h with
  | nil => exact h'
  | gap hgap _ ih => exact .gap hgap (ih h')
  | token hkind hrange _ ih => exact .token hkind hrange (ih h')
  | cut hkind hrange hreported _ ih => exact .cut hkind hrange hreported (ih h')

theorem kind_ne_eof (h : Lays source logged a ts b) : ∀ t ∈ ts, t.kind ≠ .eof := by
  induction h with
  | nil => exact List.forall_mem_nil _
  | gap _ _ ih => exact ih
  | token hkind _ _ ih =>
    refine List.forall_mem_cons.mpr ⟨?_, ih⟩
    generalize Token.kind _ = k at hkind
    rintro rfl
    cases hkind with
    | plain h | inHole h => exact h List.mem_cons_self
  | cut hkind _ _ _ ih => exact List.forall_mem_cons.mpr ⟨by rw [hkind]; decide, ih⟩

end Lays

/-! ### Pieces of text -/

theorem take_length_of_prefix {first : Char} {rest cs : List Char} (h : cs <+: rest) :
    (first :: rest).take (cs.length + 1) = first :: cs := by
  rw [List.take_succ_cons, ← List.prefix_iff_eq_take.mp h]

theorem take_add_one_of_head? {cs : List Char} {n : Nat} {c : Char} (h : (cs.drop n).head? = some c) :
    cs.take (n + 1) = cs.take n ++ [c] := by
  rw [List.head?_drop] at h
  rw [List.take_add_one, h]
  rfl

theorem byteLength_quoted {quote : Char} (h : quote.utf8Size = 1) (cs : List Char) :
    byteLength (quote :: (cs ++ [quote])) = byteLength cs + 2 := by
  simp only [Text.byteLength_cons, Text.byteLength_append, Text.byteLength_nil, h]
  omega

theorem Kind.isPlain_of_ofWord? {word : String} {k : Kind} (h : ofWord? word = some k) :
    k.isPlain = true := by
  have keywords : ∀ k ∈ keywords, k.isPlain = true := by decide
  unfold ofWord? at h
  split at h
  · cases h
    rfl
  · split at h
    · cases h
      rfl
    · exact keywords k (List.mem_of_find?_eq_some h)

theorem Kind.prefix_of_ofSymbol? {cs : List Char} {k : Kind} (h : ofSymbol? cs = some k) :
    k.text.toList <+: cs := by
  unfold ofSymbol? at h
  have found := List.find?_some h
  exact List.isPrefixOf_iff_prefix.mp found

theorem unescapedLength?_eq_some {mark : Char} {cs : List Char} {n : Nat}
    (h : unescapedLength? mark cs = some n) : ∃ text more, cs = text ++ ([mark] ++ more) ∧ text.length = n := by
  fun_induction unescapedLength? mark cs generalizing n with
  | case1 => cases h
  | case2 => cases h
  | case3 c cs ih =>
    obtain ⟨m, hm, rfl⟩ := Option.map_eq_some_iff.mp h
    obtain ⟨text, more, rfl, rfl⟩ := ih hm
    exact ⟨'\\' :: c :: text, more, rfl, rfl⟩
  | case4 cs =>
    cases h
    exact ⟨[], cs, rfl, rfl⟩
  | case5 c cs _ _ _ ih =>
    obtain ⟨m, hm, rfl⟩ := Option.map_eq_some_iff.mp h
    obtain ⟨text, more, rfl, rfl⟩ := ih hm
    exact ⟨c :: text, more, rfl, rfl⟩

/-- The mark at which a segment ends. -/
def SegmentEnd.mark : SegmentEnd → List Char
  | backtick => ['\x60']
  | hole => ['$', '\x7b']
  | input => []

theorem segmentLength_spec (cs : List Char) :
    ∃ text more, cs = text ++ ((segmentLength cs).2.mark ++ more) ∧
      (segmentLength cs).1 = text.length ∧ ((segmentLength cs).2 = .input → more = []) := by
  fun_induction segmentLength cs with
  | case1 => exact ⟨[], [], rfl, rfl, fun _ => rfl⟩
  | case2 => exact ⟨['\\'], [], rfl, rfl, fun _ => rfl⟩
  | case3 c cs n stop hrest ih =>
    rw [hrest] at ih
    obtain ⟨text, more, rfl, rfl, hmore⟩ := ih
    exact ⟨'\\' :: c :: text, more, rfl, rfl, hmore⟩
  | case4 cs => exact ⟨[], cs, rfl, rfl, fun h => by cases h⟩
  | case5 cs => exact ⟨[], cs, rfl, rfl, fun h => by cases h⟩
  | case6 c cs _ _ _ _ n stop hrest ih =>
    rw [hrest] at ih
    obtain ⟨text, more, rfl, rfl, hmore⟩ := ih
    exact ⟨c :: text, more, rfl, rfl, hmore⟩

/-! ### One look at the text -/

namespace Lexer

/-- The place where a lexer stands. -/
def spot (lx : Lexer) : Spot := ⟨.ofHole lx.hole, lx.cursor.pos, lx.cursor.ahead⟩

variable {lx : Lexer} {logged : List LexError}

theorem setting_ne_text (lx : Lexer) : Setting.ofHole lx.hole ≠ .text := by
  cases lx.hole <;> exact fun h => by cases h

/-- The characters that a scan takes. -/
def taken (lx : Lexer) (s : Scan) : List Char := lx.cursor.ahead.take (s.length + 1)

theorem spot_eq (lx : Lexer) (s : Scan) :
    lx.spot = ⟨.ofHole lx.hole, lx.cursor.pos, lx.taken s ++ lx.cursor.ahead.drop (s.length + 1)⟩ := by
  rw [taken, List.take_append_drop]
  rfl

/-- The text ahead in two pieces: its first character with those of a class behind it, and what follows them. -/
theorem ahead_takeWhile {first : Char} {rest : List Char} (ahead : lx.cursor.ahead = first :: rest)
    (p : Char → Bool) : lx.cursor.ahead = (first :: rest.takeWhile p) ++ rest.dropWhile p := by
  rw [ahead, List.cons_append, List.takeWhile_append_dropWhile]

theorem ahead_takeWhile₂ {first second : Char} {rest : List Char} (ahead : lx.cursor.ahead = first :: second :: rest)
    (p : Char → Bool) : lx.cursor.ahead = (first :: second :: rest.takeWhile p) ++ rest.dropWhile p := by
  rw [ahead, List.cons_append, List.cons_append, List.takeWhile_append_dropWhile]

theorem skip_lays {n : Nat} {errors : List LexError}
    (h : Gap lx.source logged lx.cursor.pos (lx.cursor.ahead.drop (n + 1)) (.ofHole lx.hole)
      (lx.cursor.ahead.take (n + 1)) (.ofHole lx.hole)) :
    Lays lx.source logged lx.spot (lx.skip n errors).tokens (lx.after (lx.skip n errors)).spot := by
  rw [lx.spot_eq (lx.skip n errors)]
  exact .gap h .nil

theorem scan_lays_of_token {n : Nat} {t : Token} {errors : List LexError} {hole : Option Nat}
    (hkind : t.kind.Leads (.ofHole lx.hole) (.ofHole hole))
    (hrange : t.range = lx.rangeOf (lx.cursor.ahead.take (n + 1))) :
    Lays lx.source logged lx.spot [t] (lx.after ⟨n, [t], errors, hole⟩).spot := by
  rw [lx.spot_eq ⟨n, [t], errors, hole⟩]
  exact .token hkind hrange .nil

theorem emit_lays {n : Nat} {t : Token} {errors : List LexError} (hplain : t.kind.isPlain = true)
    (hrange : t.range = lx.rangeOf (lx.cursor.ahead.take (n + 1))) :
    Lays lx.source logged lx.spot (lx.emit n t errors).tokens (lx.after (lx.emit n t errors)).spot :=
  scan_lays_of_token (Kind.Leads.of_isPlain hplain lx.hole) hrange

/-! ### Blanks and comments -/

theorem blanks_lays {first : Char} {rest : List Char} (ahead : lx.cursor.ahead = first :: rest)
    (hfirst : isBlank first = true) :
    Lays lx.source logged lx.spot (lx.skip (rest.takeWhile isBlank).length []).tokens
      (lx.after (lx.skip (rest.takeWhile isBlank).length [])).spot := by
  apply skip_lays
  rw [ahead, take_length_of_prefix (List.takeWhile_prefix _)]
  refine .blanks lx.setting_ne_text (List.forall_mem_cons.mpr ⟨hfirst, ?_⟩)
  exact fun c hc => List.mem_takeWhile_imp hc

theorem lineComment_lays {rest : List Char} (ahead : lx.cursor.ahead = '/' :: '/' :: rest) :
    Lays lx.source logged lx.spot (lx.skip (('/' :: rest).takeWhile (· != '\n')).length []).tokens
      (lx.after (lx.skip (('/' :: rest).takeWhile (· != '\n')).length [])).spot := by
  have taken : ('/' :: rest).takeWhile (· != '\n') = '/' :: rest.takeWhile (· != '\n') :=
    List.takeWhile_cons_of_pos (by decide)
  apply skip_lays
  rw [ahead, take_length_of_prefix (List.takeWhile_prefix _), taken]
  refine .lineComment lx.setting_ne_text ?_ ?_
  · intro hmem
    simpa using List.mem_takeWhile_imp hmem
  · have left : rest.drop (rest.takeWhile (· != '\n')).length = rest.dropWhile (· != '\n') := by
      have whole := congrArg (List.drop (rest.takeWhile (· != '\n')).length)
        (List.takeWhile_append_dropWhile (p := (· != '\n')) (l := rest))
      rw [List.drop_left] at whole
      exact whole.symm
    have stop := List.head?_dropWhile_not (· != '\n') rest
    intro c hc
    rw [List.length_cons, List.drop_succ_cons, List.drop_succ_cons, left] at hc
    rw [Option.mem_def.mp hc] at stop
    simpa using stop

theorem blockComment_lays {body : List Char} (ahead : lx.cursor.ahead = '/' :: '*' :: body)
    (reported : ∀ e ∈ (lx.blockComment body).errors, e ∈ logged) :
    Lays lx.source logged lx.spot (lx.blockComment body).tokens (lx.after (lx.blockComment body)).spot := by
  unfold blockComment at reported ⊢
  split at reported
  · rename_i n hn
    obtain ⟨closing, rest, rfl, rfl, hclosing⟩ := comment_of_blockCommentLength? hn
    apply skip_lays
    rw [ahead, Nat.add_comm 1, List.take_succ_cons, List.take_succ_cons, List.take_left]
    exact .blockComment lx.setting_ne_text hclosing
  · rename_i hn
    apply skip_lays
    rw [ahead, Nat.add_comm 1, List.take_succ_cons, List.take_succ_cons, List.take_length,
      List.drop_succ_cons, List.drop_succ_cons, List.drop_length]
    refine .openComment lx.setting_ne_text ?_ rfl (reported _ List.mem_cons_self)
    rintro closing ⟨rest, rfl⟩ hclosing
    rw [hclosing.blockCommentLength?] at hn
    cases hn

/-! ### Words and numbers -/

theorem word_lays {first : Char} {rest : List Char} (ahead : lx.cursor.ahead = first :: rest) :
    Lays lx.source logged lx.spot (lx.word first rest).tokens (lx.after (lx.word first rest)).spot := by
  have hrange : lx.rangeOf (first :: rest.takeWhile isWordPart) =
      lx.rangeOf (lx.cursor.ahead.take ((rest.takeWhile isWordPart).length + 1)) := by
    rw [ahead, take_length_of_prefix (List.takeWhile_prefix _)]
  simp only [word]
  split
  · exact emit_lays rfl hrange
  · rename_i hword
    exact emit_lays (Kind.isPlain_of_ofWord? hword) hrange
  · exact emit_lays rfl hrange

theorem integer_lays {first : Char} {rest cs : List Char} (ahead : lx.cursor.ahead = first :: rest)
    (h : cs <+: rest) (value : Nat) :
    Lays lx.source logged lx.spot (lx.integer (first :: cs) value).tokens
      (lx.after (lx.integer (first :: cs) value)).spot := by
  have hrange : lx.rangeOf (first :: cs) = lx.rangeOf (lx.cursor.ahead.take (cs.length + 1)) := by
    rw [ahead, take_length_of_prefix h]
  simp only [integer]
  split
  · exact emit_lays rfl hrange
  · exact emit_lays rfl hrange

theorem radixInteger_lays {letter : Char} {rest : List Char} (radix : Radix)
    (ahead : lx.cursor.ahead = '0' :: letter :: rest) :
    Lays lx.source logged lx.spot (lx.radixInteger radix letter rest).tokens
      (lx.after (lx.radixInteger radix letter rest)).spot := by
  have within {cs : List Char} (h : cs <+: rest) : letter :: cs <+: letter :: rest :=
    List.cons_prefix_cons.mpr ⟨rfl, h⟩
  simp only [radixInteger]
  split
  · refine emit_lays rfl ?_
    rw [ahead, List.length_cons, Nat.add_sub_cancel,
      take_length_of_prefix (within (List.takeWhile_prefix _))]
    rfl
  · exact integer_lays ahead (within (List.takeWhile_prefix _)) _

theorem decimalNumber_lays {first : Char} {rest : List Char} (ahead : lx.cursor.ahead = first :: rest) :
    Lays lx.source logged lx.spot (lx.decimalNumber first rest).tokens
      (lx.after (lx.decimalNumber first rest)).spot := by
  simp only [decimalNumber]
  split
  · refine emit_lays rfl ?_
    rw [ahead, List.length_cons, Nat.sub_add_cancel (by omega)]
  · exact integer_lays ahead (List.takeWhile_prefix _) _

/-! ### Characters and strings -/

theorem charLiteral_lays {rest : List Char} (ahead : lx.cursor.ahead = '\x27' :: rest)
    (reported : ∀ e ∈ (lx.charLiteral rest).errors, e ∈ logged) :
    Lays lx.source logged lx.spot (lx.charLiteral rest).tokens (lx.after (lx.charLiteral rest)).spot := by
  unfold charLiteral at reported ⊢
  split at reported
  case h_1 | h_2 | h_3 =>
    apply skip_lays
    rw [ahead]
    exact .fault lx.setting_ne_text (reported _ List.mem_cons_self) rfl rfl
  case h_4 c body _ _ =>
    generalize lx.charValue c body = found at reported ⊢
    obtain ⟨value, length, errors⟩ := found
    dsimp only at reported ⊢
    split at reported
    · rename_i hquote
      rw [if_pos hquote]
      apply emit_lays rfl
      rw [ahead, List.take_succ_cons, take_add_one_of_head? hquote]
      exact congrArg (lx.rangeAt 0) (byteLength_quoted rfl _).symm
    · rename_i hquote
      rw [if_neg hquote]
      apply skip_lays
      rw [ahead, List.take_succ_cons]
      refine .fault lx.setting_ne_text (reported _ (List.mem_append_right _ List.mem_cons_self)) rfl ?_
      exact congrArg (lx.rangeAt 0) (Nat.add_comm _ 1)

theorem stringLiteral_lays {rest : List Char} (ahead : lx.cursor.ahead = '"' :: rest) :
    Lays lx.source logged lx.spot (lx.stringLiteral rest).tokens (lx.after (lx.stringLiteral rest)).spot := by
  unfold stringLiteral
  split
  · rename_i n hn
    obtain ⟨text, more, rfl, rfl⟩ := unescapedLength?_eq_some hn
    apply emit_lays rfl
    rw [ahead, List.take_left, List.take_succ_cons, List.take_length_add_append]
    exact congrArg (lx.rangeAt 0) (byteLength_quoted rfl _).symm
  · apply emit_lays rfl
    rw [ahead, List.take_succ_cons, List.take_length]
    exact congrArg (lx.rangeAt 0) (Nat.add_comm _ 1)

/-! ### Templates -/

theorem segment_lays (lx : Lexer) (text more : List Char) :
    Lays lx.source logged ⟨.text, lx.cursor.pos + 1, text ++ more⟩ [lx.segmentToken text]
      ⟨.text, lx.cursor.pos + 1 + byteLength text, more⟩ :=
  .token .templateText rfl .nil

theorem optionalSegment_lays (lx : Lexer) (text more : List Char) :
    Lays lx.source logged ⟨.text, lx.cursor.pos + 1, text ++ more⟩
      (if text.isEmpty then [] else [lx.segmentToken text])
      ⟨.text, lx.cursor.pos + 1 + byteLength text, more⟩ := by
  cases text with
  | nil => exact .nil
  | cons c text => exact lx.segment_lays (c :: text) more

theorem rangeAt_eq {offset length start stop : Nat} (hstart : lx.cursor.pos + offset = start)
    (hstop : start + length = stop) : lx.rangeAt offset length = lx.source.range start stop := by
  rw [rangeAt, hstart, hstop]

/-- The look at the text of a template that ends in this way. -/
def segmentScan (lx : Lexer) (text : List Char) (resumed : Bool) : SegmentEnd → Scan
  | .backtick =>
    ⟨text.length + 1, (if text.isEmpty then [] else [lx.segmentToken text]) ++
      [.bare .templateClose (lx.rangeAt (byteLength text + 1) 1)], [], none⟩
  | .hole =>
    ⟨text.length + 2, if resumed then [lx.segmentToken text] else if text.isEmpty then [] else [lx.segmentToken text],
      [], some 0⟩
  | .input =>
    ⟨text.length, (if text.isEmpty then [] else [lx.segmentToken text]) ++
      [.bare .templateClose (lx.rangeAt (byteLength text + 1) 0)],
      [⟨.unterminated .template, lx.rangeAt 1 (byteLength text)⟩], none⟩

theorem templateText_eq (lx : Lexer) (rest : List Char) (resumed : Bool) : ∃ text stop more,
    rest = text ++ (SegmentEnd.mark stop ++ more) ∧ (stop = .input → more = []) ∧
      lx.templateText rest resumed = lx.segmentScan text resumed stop := by
  obtain ⟨text, more, hrest, hn, hmore⟩ := segmentLength_spec rest
  refine ⟨text, (segmentLength rest).2, more, hrest, hmore, ?_⟩
  unfold templateText
  generalize segmentLength rest = found at hrest hn ⊢
  obtain ⟨n, stop⟩ := found
  dsimp only at hrest hn ⊢
  rw [hn, hrest, List.take_left]
  cases stop <;> rfl

/-- The text of a template and what ends it are laid out after the character at the cursor. -/
theorem templateText_lays (lx : Lexer) (rest : List Char) (resumed : Bool) :
    Lays lx.source logged ⟨.text, lx.cursor.pos + 1, rest⟩ (lx.templateText rest resumed).tokens
      ⟨.ofHole (lx.templateText rest resumed).hole,
        lx.cursor.pos + 1 + byteLength (rest.take (lx.templateText rest resumed).length),
        rest.drop (lx.templateText rest resumed).length⟩ := by
  obtain ⟨text, stop, more, rfl, hmore, hscan⟩ := lx.templateText_eq rest resumed
  rw [hscan]
  cases stop with
  | backtick =>
    dsimp only [segmentScan]
    rw [List.take_length_add_append, List.drop_length_add_append, Text.byteLength_append, ← Nat.add_assoc]
    exact (lx.optionalSegment_lays text _).trans
      (.token .templateClose (rangeAt_eq (by omega) rfl) .nil)
  | hole =>
    dsimp only [segmentScan]
    rw [List.take_length_add_append, List.drop_length_add_append, Text.byteLength_append, ← Nat.add_assoc]
    have segment : Lays lx.source logged ⟨.text, lx.cursor.pos + 1, text ++ (SegmentEnd.hole.mark ++ more)⟩
        (if resumed then [lx.segmentToken text] else if text.isEmpty then [] else [lx.segmentToken text])
        ⟨.text, lx.cursor.pos + 1 + byteLength text, SegmentEnd.hole.mark ++ more⟩ := by
      split
      · exact lx.segment_lays text _
      · exact lx.optionalSegment_lays text _
    have opening := segment.trans (.gap .opening .nil)
    rw [List.append_nil] at opening
    exact opening
  | input =>
    obtain rfl := hmore rfl
    dsimp only [segmentScan]
    rw [List.drop_left, List.take_left]
    exact (lx.optionalSegment_lays text _).trans
      (.token .templateClose (rangeAt_eq (by omega) rfl) .nil)

/-- A scan that goes on as template text after its first character. -/
theorem lays_of_templateText {first : Char} {rest : List Char} {s : Scan}
    (ahead : lx.cursor.ahead = first :: rest) (hfirst : first.utf8Size = 1)
    (h : Lays lx.source logged lx.spot s.tokens
      ⟨.ofHole s.hole, lx.cursor.pos + 1 + byteLength (rest.take s.length), rest.drop s.length⟩) :
    Lays lx.source logged lx.spot s.tokens (lx.after s).spot := by
  have stop : (lx.after s).spot =
      ⟨.ofHole s.hole, lx.cursor.pos + 1 + byteLength (rest.take s.length), rest.drop s.length⟩ := by
    simp only [spot, after, Cursor.advance, ahead, List.take_succ_cons, List.drop_succ_cons,
      Text.byteLength_cons, hfirst, Nat.add_assoc]
  rw [stop]
  exact h

/-- A template in a hole and the mark that ends it. -/
theorem nested_lays (lx : Lexer) (braces : Nat) (text mark more : List Char) :
    Lays lx.source logged ⟨.hole braces, lx.cursor.pos, ['\x60'] ++ (text ++ (mark ++ more))⟩
      [.bare .templateOpen (lx.rangeAt 0 1), lx.segmentToken text,
        .bare .templateClose (lx.rangeAt (byteLength text + 1) (byteLength mark))]
      ⟨.hole braces, lx.cursor.pos + 1 + byteLength text + byteLength mark, more⟩ := by
  have opening : Kind.Leads (.hole braces) .templateOpen (.hole braces) := .inHole (by decide)
  have segment : Kind.Leads (.hole braces) .templateText (.hole braces) := .inHole (by decide)
  have closing : Kind.Leads (.hole braces) .templateClose (.hole braces) := .inHole (by decide)
  have closeRange : lx.rangeAt (byteLength text + 1) (byteLength mark) = lx.source.range
      (lx.cursor.pos + 1 + byteLength text) (lx.cursor.pos + 1 + byteLength text + byteLength mark) :=
    rangeAt_eq (by omega) rfl
  exact .token opening rfl (.token segment rfl (.token closing closeRange .nil))

theorem nestedTemplate_lays {rest : List Char} {braces : Nat} (ahead : lx.cursor.ahead = '\x60' :: rest)
    (hole : lx.hole = some braces) :
    Lays lx.source logged lx.spot (lx.nestedTemplate rest).tokens (lx.after (lx.nestedTemplate rest)).spot := by
  apply lays_of_templateText ahead rfl
  have start : lx.spot = ⟨.hole braces, lx.cursor.pos, ['\x60'] ++ rest⟩ := by
    rw [spot, hole, ahead]
    rfl
  rw [start]
  unfold nestedTemplate
  split
  · rename_i n hn
    obtain ⟨text, more, rfl, rfl⟩ := unescapedLength?_eq_some hn
    rw [List.take_left, List.take_length_add_append, List.drop_length_add_append, Text.byteLength_append,
      ← Nat.add_assoc, hole]
    exact lx.nested_lays braces text ['\x60'] more
  · have unclosed : Lays lx.source logged _ _ _ := lx.nested_lays braces rest [] []
    rw [List.append_nil, List.append_nil] at unclosed
    rw [List.take_length, List.drop_length, hole]
    exact unclosed

theorem template_lays {rest : List Char} (ahead : lx.cursor.ahead = '\x60' :: rest) :
    Lays lx.source logged lx.spot (lx.template rest).tokens (lx.after (lx.template rest)).spot := by
  unfold template
  split
  · rename_i braces hole
    exact nestedTemplate_lays ahead hole
  · rename_i hole
    apply lays_of_templateText ahead rfl
    have start : lx.spot = ⟨.code, lx.cursor.pos, ['\x60'] ++ rest⟩ := by rw [spot, hole, ahead]; rfl
    rw [start]
    exact .token .templateOpen rfl (lx.templateText_lays rest false)

/-! ### Symbols -/

theorem symbol_of_isPlain {k : Kind} (h : k.isPlain = true) (rest : List Char) :
    lx.symbol k rest =
      lx.emit (k.text.toList.length - 1) (.bare k (lx.rangeAt 0 k.text.toList.length)) [] := by
  unfold symbol
  dsimp only
  split
  case h_1 | h_2 | h_3 => cases h
  case h_4 => rfl

theorem symbol_lBrace {braces : Nat} (hole : lx.hole = some braces) (rest : List Char) :
    lx.symbol .lBrace rest = ⟨0, [.bare .lBrace (lx.rangeAt 0 1)], [], some (braces + 1)⟩ := by
  simp only [symbol, hole]
  rfl

theorem symbol_rBrace {braces : Nat} (hole : lx.hole = some (braces + 1)) (rest : List Char) :
    lx.symbol .rBrace rest = ⟨0, [.bare .rBrace (lx.rangeAt 0 1)], [], some braces⟩ := by
  simp only [symbol, hole]
  rfl

theorem symbol_closing (hole : lx.hole = some 0) (rest : List Char) :
    lx.symbol .rBrace rest = lx.templateText rest true := by
  simp only [symbol, hole]

theorem symbol_lays {k : Kind} {first : Char} {rest : List Char} (ahead : lx.cursor.ahead = first :: rest)
    (hk : Kind.ofSymbol? (first :: rest) = some k) :
    Lays lx.source logged lx.spot (lx.symbol k rest).tokens (lx.after (lx.symbol k rest)).spot := by
  have symbols : ∀ k ∈ Kind.symbols, byteLength k.text.toList = k.text.toList.length ∧
    k.text.toList ≠ [] ∧ (k.isPlain = true ∨ k = .lBrace ∨ k = .rBrace) := by decide
  obtain ⟨bytes, nonempty, sort⟩ := symbols k (List.mem_of_find?_eq_some hk)
  have length : k.text.toList.length - 1 + 1 = k.text.toList.length :=
    Nat.sub_add_cancel (List.length_pos_iff.mpr nonempty)
  have hspelled := List.prefix_iff_eq_take.mp (Kind.prefix_of_ofSymbol? hk)
  have hrange : lx.rangeAt 0 k.text.toList.length =
      lx.rangeOf (lx.cursor.ahead.take (k.text.toList.length - 1 + 1)) := by
    rw [length, ahead, ← hspelled, rangeOf, bytes]
  have outside (hole : lx.hole = none) (hk : k ∉ [.eof, .templateOpen, .templateText, .templateClose]) :
      Lays lx.source logged lx.spot (lx.symbol k rest).tokens (lx.after (lx.symbol k rest)).spot := by
    rw [lx.symbol_of_no_hole rest hole]
    refine scan_lays_of_token ?_ hrange
    rw [hole]
    exact .plain hk
  rcases sort with plain | rfl | rfl
  · rw [symbol_of_isPlain plain]
    exact emit_lays plain hrange
  · cases hole : lx.hole with
    | none => exact outside hole (by decide)
    | some braces =>
      rw [symbol_lBrace hole]
      refine scan_lays_of_token ?_ hrange
      rw [hole]
      exact .lBrace
  · cases hole : lx.hole with
    | none => exact outside hole (by decide)
    | some braces =>
      cases braces with
      | zero =>
        obtain rfl : first = '\x7d' := (List.cons.inj hspelled).1.symm
        have start : lx.spot = ⟨.hole 0, lx.cursor.pos, ['\x7d'] ++ rest⟩ := by
          rw [spot, hole, ahead]
          rfl
        rw [symbol_closing hole]
        apply lays_of_templateText ahead rfl
        rw [start]
        exact .gap .closing (lx.templateText_lays rest true)
      | succ braces =>
        rw [symbol_rBrace hole]
        refine scan_lays_of_token ?_ hrange
        rw [hole]
        exact .rBrace

/-- One look at the text lays out the characters that it takes. -/
theorem scan_lays {first : Char} {rest : List Char} (ahead : lx.cursor.ahead = first :: rest)
    (reported : ∀ e ∈ (lx.scan first rest).errors, e ∈ logged) :
    Lays lx.source logged lx.spot (lx.scan first rest).tokens (lx.after (lx.scan first rest)).spot := by
  revert reported
  unfold scan
  split
  · exact fun _ => blanks_lays ahead ‹_›
  split
  · exact fun _ => word_lays ahead
  split
  · split
    · split
      · exact fun _ => radixInteger_lays _ ahead
      · exact fun _ => decimalNumber_lays ahead
    · exact fun _ => decimalNumber_lays ahead
  split
  · exact fun _ => lineComment_lays ahead
  · exact fun reported => blockComment_lays ahead reported
  · exact fun reported => charLiteral_lays ahead reported
  · exact fun _ => stringLiteral_lays ahead
  · exact fun _ => template_lays ahead
  · split
    · exact fun _ => symbol_lays ahead ‹_›
    · intro reported
      apply skip_lays
      rw [ahead]
      exact .fault lx.setting_ne_text (reported _ List.mem_cons_self) rfl rfl

end Lexer

end BraceLang
