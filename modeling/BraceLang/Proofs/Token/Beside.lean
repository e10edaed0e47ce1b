import BraceLang.Proofs.Token.Spelled

/-! Two lexers side by side, at texts that are the same up to a blank. A look that stays before the blank does
    not depend on what stands behind it, and only blanks and comments lead past it if nothing is wrong
    (`Lexer.scan_beside`). -/

namespace BraceLang

variable {w x y : List Char} {p : Char → Bool}

/-! ### Pieces of text before a blank -/

theorem takeWhile_blank (blank : p ' ' = false) : (w ++ ' ' :: x).takeWhile p = w.takeWhile p := by
  rw [List.takeWhile_append, List.takeWhile_cons_of_neg (by rw [blank]; decide), List.append_nil]
  split
  · rename_i hlength
    exact ((List.takeWhile_prefix p).eq_of_length hlength).symm
  · rfl

theorem takeWhile_take_blank (blank : p ' ' = false) (n : Nat) :
    ((w ++ ' ' :: x).take n).takeWhile p = (w.take n).takeWhile p := by
  rw [List.take_append]
  cases n - w.length with
  | zero => rw [List.take_zero, List.append_nil]
  | succ i => rw [List.take_succ_cons, takeWhile_blank blank]

/-- Where something in a text ends what is taken of it, nothing behind the text matters. -/
theorem takeWhile_append_of_lt (h : (w.takeWhile p).length < w.length) : (w ++ x).takeWhile p = w.takeWhile p := by
  rw [List.takeWhile_append, if_neg (Nat.ne_of_lt h)]

theorem fractionDigits_blank : fractionDigits (w ++ ' ' :: x) = fractionDigits w := by
  unfold fractionDigits
  cases w with
  | nil => rfl
  | cons c w =>
    rw [List.cons_append]
    split
    · rename_i heq
      cases heq
      exact takeWhile_blank rfl
    · rename_i hc
      split
      · rename_i heq
        cases heq
        exact absurd rfl (hc _)
      · rfl

/-- The digits of an exponent behind `marks` characters, of which the last may be a sign. -/
def exponentDigits? (negative : Bool) (marks : Nat) (ds : List Char) : Option (Int × Nat) :=
  let digits := ds.takeWhile Char.isDigit
  let value : Int := positional 10 digits
  if digits.isEmpty then none else some (if negative then -value else value, marks + digits.length)

theorem exponentPart?_cons (c : Char) (ds : List Char) : exponentPart? (c :: ds) =
    if c = 'e' ∨ c = 'E' then
      if ds.head? = some '-' then exponentDigits? true 2 ds.tail
      else if ds.head? = some '+' then exponentDigits? false 2 ds.tail
      else exponentDigits? false 1 ds
    else none := by
  have marked : exponentPart? ('e' :: ds) = exponentPart? ('E' :: ds) := rfl
  have signed : exponentPart? ('e' :: ds) = if ds.head? = some '-' then exponentDigits? true 2 ds.tail
      else if ds.head? = some '+' then exponentDigits? false 2 ds.tail
      else exponentDigits? false 1 ds := by
    rw [exponentPart?]
    dsimp only
    split
    · rfl
    · rfl
    · rename_i hminus hplus
      have starts {sign : Char} (h : ds.head? = some sign) : ∃ rest, ds = sign :: rest :=
        List.head?_eq_some_iff.mp h
      have minus : ds.head? ≠ some '-' := fun h => (starts h).elim hminus
      have plus : ds.head? ≠ some '+' := fun h => (starts h).elim hplus
      rw [if_neg minus, if_neg plus]
      rfl
  by_cases he : c = 'e'
  · rw [if_pos (.inl he), he, signed]
  by_cases hE : c = 'E'
  · rw [if_pos (.inr hE), hE, ← marked, signed]
  rw [if_neg (not_or.mpr ⟨he, hE⟩)]
  unfold exponentPart?
  split
  · rename_i heq
    exact absurd (List.cons.inj heq).1 he
  · rename_i heq
    exact absurd (List.cons.inj heq).1 hE
  · rfl

theorem exponentPart?_length_le {cs : List Char} {value : Int} {n : Nat}
    (h : exponentPart? cs = some (value, n)) : n ≤ cs.length := by
  have digits {negative : Bool} {marks : Nat} {ds : List Char}
      (h : exponentDigits? negative marks ds = some (value, n)) : n ≤ marks + ds.length := by
    unfold exponentDigits? at h
    dsimp only at h
    split at h
    · cases h
    · cases h
      exact Nat.add_le_add_left (List.takeWhile_prefix _).length_le marks
  rcases cs with _ | ⟨c, ds⟩
  · cases h
  rw [exponentPart?_cons] at h
  split at h
  · have signed {sign : Char} (hsign : ds.head? = some sign) : 2 + ds.tail.length ≤ (c :: ds).length := by
      obtain ⟨rest, rfl⟩ := List.head?_eq_some_iff.mp hsign
      exact (Nat.add_comm _ _).le
    split at h
    · exact (digits h).trans (signed ‹_›)
    split at h
    · exact (digits h).trans (signed ‹_›)
    · exact (digits h).trans (Nat.add_comm _ _).le
  · cases h

theorem exponentPart?_blank : exponentPart? (w ++ ' ' :: x) = exponentPart? w := by
  have digits (negative : Bool) (marks : Nat) (ds : List Char) :
      exponentDigits? negative marks (ds ++ ' ' :: x) = exponentDigits? negative marks ds := by
    unfold exponentDigits?
    rw [takeWhile_blank rfl]
  rcases w with _ | ⟨c, _ | ⟨d, w⟩⟩
  · rfl
  · rw [List.cons_append, exponentPart?_cons, exponentPart?_cons, digits]
    rfl
  · rw [List.cons_append, exponentPart?_cons, exponentPart?_cons, digits, List.cons_append, List.tail_cons,
      List.tail_cons, digits, digits]
    rfl

/-- Digits behind a point, and the point, are a piece of the text. -/
theorem fractionDigits_length_le (w : List Char) :
    (if (fractionDigits w).isEmpty = true then 0 else (fractionDigits w).length + 1) ≤ w.length := by
  unfold fractionDigits
  split
  · rename_i ds
    have digits := (List.takeWhile_prefix (l := ds) Char.isDigit).length_le
    split
    · exact Nat.zero_le _
    · exact Nat.succ_le_succ digits
  · exact Nat.zero_le _

theorem fraction?_blank : fraction? (w ++ ' ' :: x) = fraction? w := by
  unfold fraction?
  rw [fractionDigits_blank]
  dsimp only
  rw [List.drop_append_of_le_length (fractionDigits_length_le w), exponentPart?_blank]

theorem fraction?_length_le {cs : List Char} {fraction : Fraction} (h : fraction? cs = some fraction) :
    fraction.length ≤ cs.length := by
  have taken := fractionDigits_length_le cs
  unfold fraction? at h
  dsimp only at h
  split at h
  · rename_i exponent
    cases h
    have length := exponentPart?_length_le exponent
    rw [List.length_drop] at length
    dsimp only
    omega
  · split at h
    · cases h
    · rename_i digits
      rw [if_neg digits] at taken
      cases h
      exact taken

theorem decode_blank (hw : w ≠ []) : Escape.decode (w ++ ' ' :: x) = Escape.decode w := by
  obtain ⟨c, w, rfl⟩ := List.exists_cons_of_ne_nil hw
  have hex : ((w ++ ' ' :: x).take 2).takeWhile (isDigitIn 16) = (w.take 2).takeWhile (isDigitIn 16) :=
    takeWhile_take_blank rfl 2
  have octal : ((c :: w ++ ' ' :: x).take 3).takeWhile (isDigitIn 8) = ((c :: w).take 3).takeWhile (isDigitIn 8) :=
    takeWhile_take_blank rfl 3
  rw [List.cons_append] at octal ⊢
  unfold Escape.decode
  split
  case h_1 heq => cases heq
  case h_2 heq =>
    cases heq
    dsimp only
    rw [hex]
    rfl
  case h_9 heq =>
    cases heq
    rw [octal]
    symm
    split
    case h_1 heq => cases heq
    case h_9 heq =>
      cases heq
      rfl
    all_goals
      rename_i heq
      cases heq
      contradiction
  all_goals
    rename_i heq
    cases heq
    rfl
/-! ### Marks in a text -/

/-- A mark that does not stand in the second of two texts stands in the first. -/
theorem length_lt_of_mark {as bs : List Char} {mark : Char} (h : as ++ mark :: bs = w ++ x) (hx : mark ∉ x) :
    as.length < w.length := by
  by_contra hle
  obtain ⟨more, hmore⟩ : w <+: as := by
    refine List.prefix_of_prefix_length_le ?_ ⟨mark :: bs, h⟩ (Nat.not_lt.mp hle)
    exact List.prefix_append w x
  rw [← hmore, List.append_assoc, List.append_cancel_left_eq] at h
  exact hx (h ▸ List.mem_append_right more List.mem_cons_self)

theorem lt_of_head?_drop {n : Nat} {mark : Char} (h : ((w ++ x).drop n).head? = some mark) (hx : mark ∉ x) :
    n < w.length := by
  by_contra hle
  rw [List.drop_append, List.drop_eq_nil_of_le (Nat.not_lt.mp hle), List.nil_append] at h
  exact hx (List.mem_of_mem_drop (List.mem_of_head? h))

theorem head?_drop_append {n : Nat} (h : n < w.length) (x y : List Char) :
    ((w ++ x).drop n).head? = ((w ++ y).drop n).head? := by
  rw [List.head?_drop, List.head?_drop, List.getElem?_append_left h, List.getElem?_append_left h]

/-- A character that starts no escape is no backslash. -/
theorem ne_backslash {c : Char} {cs : List Char} (last : c = '\\' → cs = [] → False)
    (escape : ∀ d ds, c = '\\' → cs = d :: ds → False) : c ≠ '\\' := by
  intro hc
  cases cs with
  | nil => exact last hc rfl
  | cons d ds => exact escape d ds hc rfl

theorem unescapedLength?_cons {mark c : Char} (hc : c ≠ '\\') (cs : List Char) :
    unescapedLength? mark (c :: cs) = if c = mark then some 0 else (unescapedLength? mark cs).map (· + 1) :=
  unescapedLength?.eq_4 _ _ _ (fun h _ => hc h) fun _ _ h _ => hc h

/-- The end of a string that stands in a text is found there, whatever stands behind the text. -/
theorem unescapedLength?_append {mark : Char} {n : Nat} (h : unescapedLength? mark (w ++ x) = some n)
    (hn : n < w.length) (y : List Char) : unescapedLength? mark (w ++ y) = some n := by
  induction w using unescapedLength?.induct mark generalizing n with
  | case1 => exact absurd hn (Nat.not_lt_zero _)
  | case2 =>
    -- the backslash takes a character with it
    cases x with
    | nil => cases h
    | cons c x =>
      obtain ⟨m, -, rfl⟩ := Option.map_eq_some_iff.mp h
      exact absurd (Nat.lt_of_succ_lt_succ hn) (Nat.not_lt_zero _)
  | case3 c cs ih =>
    obtain ⟨m, hm, rfl⟩ := Option.map_eq_some_iff.mp h
    have later := ih hm (Nat.lt_of_add_lt_add_right hn)
    rw [List.cons_append, List.cons_append, unescapedLength?, later]
    rfl
  | case4 cs hlast hescape =>
    have hne := ne_backslash hlast hescape
    rw [List.cons_append, unescapedLength?_cons hne, if_pos rfl] at h ⊢
    exact h
  | case5 c cs hlast hescape hmark ih =>
    have hne := ne_backslash hlast hescape
    rw [List.cons_append, unescapedLength?_cons hne, if_neg hmark] at h ⊢
    obtain ⟨m, hm, rfl⟩ := Option.map_eq_some_iff.mp h
    rw [ih hm (Nat.lt_of_succ_lt_succ hn)]
    rfl

theorem segmentLength_cons {c : Char} {cs : List Char} (hc : c ≠ '\\') (hb : c ≠ '\x60')
    (hd : ∀ ds, c = '$' → cs = '\x7b' :: ds → False) :
    segmentLength (c :: cs) = ((segmentLength cs).1 + 1, (segmentLength cs).2) :=
  segmentLength.eq_6 _ _ (fun h _ => hc h) (fun _ _ h _ => hc h) hb hd

theorem segmentLength_escape (c : Char) (cs : List Char) :
    segmentLength ('\\' :: c :: cs) = ((segmentLength cs).1 + 2, (segmentLength cs).2) := rfl

/-- The end of template text that stands in a text is found there. -/
theorem segmentLength_append {n : Nat} {stop : SegmentEnd} (h : segmentLength (w ++ x) = (n, stop))
    (hstop : stop ≠ .input) (hn : n + stop.mark.length ≤ w.length) (y : List Char) :
    segmentLength (w ++ y) = (n, stop) := by
  have marked : 0 < stop.mark.length := by
    cases stop with
    | input => exact absurd rfl hstop
    | backtick | hole => exact Nat.succ_pos _
  induction w using segmentLength.induct generalizing n with
  | case1 => exact absurd (Nat.lt_of_lt_of_le marked (Nat.le_of_add_left_le hn)) (Nat.lt_irrefl _)
  | case2 =>
    cases x with
    | nil =>
      cases h
      exact absurd rfl hstop
    | cons c x =>
      obtain ⟨rfl, -⟩ := Prod.mk.inj h
      simp only [List.length_singleton] at hn
      omega
  | case3 c cs _ _ _ ih =>
    rw [List.cons_append, List.cons_append, segmentLength_escape] at h ⊢
    obtain ⟨rfl, rfl⟩ := Prod.mk.inj h
    rw [List.length_cons, List.length_cons] at hn
    rw [ih rfl (by omega)]
  | case4 cs => exact h
  | case5 cs => exact h
  | case6 c cs hlast hescape hb hd _ _ _ ih =>
    have hc := ne_backslash hlast hescape
    cases cs with
    | nil =>
      -- the text takes this character, or a hole opens with it and goes on behind it
      exfalso
      rw [List.length_singleton] at hn
      by_cases opens : ∃ ds, c = '$' ∧ x = '\x7b' :: ds
      · obtain ⟨ds, rfl, rfl⟩ := opens
        cases h
        exact absurd hn (by decide)
      · rw [List.singleton_append, segmentLength_cons hc hb fun ds h h' => opens ⟨ds, h, h'⟩] at h
        obtain ⟨rfl, -⟩ := Prod.mk.inj h
        omega
    | cons e cs =>
      have inner (z ds : List Char) (hdollar : c = '$') (heq : e :: cs ++ z = '\x7b' :: ds) : False := by
        obtain ⟨rfl, -⟩ := List.cons.inj heq
        exact hd cs hdollar rfl
      rw [List.cons_append, segmentLength_cons hc hb (inner _)] at h ⊢
      obtain ⟨rfl, rfl⟩ := Prod.mk.inj h
      rw [ih rfl (by rw [List.length_cons] at hn; omega)]

/-! ### Two looks -/

/-- Two looks at texts that start with `w`: they take the same piece of it and give tokens that say the same,
    and the second finds nothing wrong. -/
structure Scan.Alike (w : List Char) (s s' : Scan) : Prop where
  inside : s.length ≤ w.length
  length : s'.length = s.length
  lexemes : s'.tokens.map Token.lexeme = s.tokens.map Token.lexeme
  errors : s'.errors = []
  hole : s'.hole = s.hole

/-- Characters that a look before them does not take for anything else. -/
def closerMarks : List Char := [')', ']', '\x7d', ',', ';', ':']

theorem not_mem_blank_closer {c : Char} (hx : x ⊆ closerMarks) (hc : c ∉ ' ' :: closerMarks) : c ∉ ' ' :: x :=
  fun h => hc (List.cons_subset_cons _ hx h)

theorem takeWhile_isBlank_closer (hx : x ⊆ closerMarks) : x.takeWhile isBlank = [] := by
  have closers : closerMarks.any isBlank = false := by decide
  cases x with
  | nil => rfl
  | cons c x => exact List.takeWhile_cons_of_neg (List.any_eq_false.mp closers c (hx List.mem_cons_self))

/-- Only the brace that closes a hole has no number of open braces behind it. -/
theorem Kind.holeAfter?_eq_none {k : Kind} {hole : Option Nat} (h : k.holeAfter? hole = none) :
    k = .rBrace ∧ hole = some 0 := by
  unfold holeAfter? at h
  split at h
  · cases h
  · exact ⟨rfl, rfl⟩
  · cases h
  · cases h

namespace Lexer

variable {lx lx' : Lexer} {first : Char}

/-! ### Branches -/

theorem scan_blanks (lx : Lexer) {first : Char} (rest : List Char) (blank : isBlank first = true) :
    lx.scan first rest = lx.skip (rest.takeWhile isBlank).length [] := if_pos blank

theorem scan_wordStart (lx : Lexer) {first : Char} (rest : List Char) (word : isWordStart first = true) :
    lx.scan first rest = lx.word first rest := by
  have blank := isBlank_eq_false word (by decide)
  unfold scan
  rw [if_neg (by rw [blank]; decide), if_pos word]

/-- A look at text that starts with a digit. -/
theorem scan_number (lx : Lexer) {first : Char} (rest : List Char) (digit : first.isDigit = true) :
    lx.scan first rest =
      match if first = '0' then rest.head?.bind Radix.ofLetter? else none with
      | some radix => lx.radixInteger radix (rest.headD ' ') rest.tail
      | none => lx.decimalNumber first rest := by
  have blank := isBlank_eq_false digit (by decide)
  unfold scan
  rw [if_neg (by rw [blank]; decide), if_neg (by rw [isWordStart_of_isDigit digit]; decide), if_pos digit]
  split
  · rw [if_pos rfl]
    rfl
  · rename_i hzero
    have decimal : (if first = '0' then rest.head?.bind Radix.ofLetter? else none) = none := by
      split
      · cases rest with
        | nil => rfl
        | cons letter digits => exact (hzero letter digits ‹_› rfl).elim
      · rfl
    rw [decimal]

/-- A look at text that starts with neither a blank nor a word nor a number. -/
theorem scan_other (lx : Lexer) {first : Char} (rest : List Char) (blank : isBlank first = false)
    (word : isWordStart first = false) (digit : first.isDigit = false) : lx.scan first rest =
      if first = '/' ∧ rest.head? = some '/' then lx.skip (rest.takeWhile (· != '\n')).length []
      else if first = '/' ∧ rest.head? = some '*' then lx.blockComment rest.tail
      else if first = '\x27' then lx.charLiteral rest
      else if first = '"' then lx.stringLiteral rest
      else if first = '\x60' then lx.template rest
      else match Kind.ofSymbol? (first :: rest) with
        | some kind => lx.symbol kind rest
        | none => lx.skip 0 [⟨.unexpectedChar first, lx.rangeOf [first]⟩] := by
  unfold scan
  rw [if_neg (by rw [blank]; decide), if_neg (by rw [word]; decide), if_neg (by rw [digit]; decide)]
  split
  · rfl
  · rfl
  · rfl
  · rfl
  · rfl
  · rename_i hquote hdouble hbacktick hline hblock
    have starts {c : Char} (hc : ∀ tail, first = '/' → rest = c :: tail → False) :
        ¬(first = '/' ∧ rest.head? = some c) := by
      rintro ⟨hslash, hhead⟩
      obtain ⟨tail, htail⟩ := List.head?_eq_some_iff.mp hhead
      exact hc tail hslash htail
    rw [if_neg (starts hline), if_neg (starts hblock), if_neg hquote, if_neg hdouble]
    exact (if_neg hbacktick).symm

/-! ### Looks side by side -/

/-- Two lexers at the same place, as far as the text behind them says. -/
structure Beside (lx lx' : Lexer) : Prop where
  pos : lx'.cursor.pos = lx.cursor.pos
  behind : lx'.cursor.behind = lx.cursor.behind
  hole : lx'.hole = lx.hole

/-- Two looks at texts that start with `w` and a blank, behind which `x` and `y` stand: both stay before the blank,
    or both take blanks up to what stands behind it, or both take a comment in which all of it stands. -/
inductive Look (lx lx' : Lexer) (w x y : List Char) : Scan → Scan → Prop where
  | inside {s s' : Scan} (h : s.Alike w s') : Look lx lx' w x y s s'
  | blanks : Look lx lx' w x y (lx.skip (w.length + 1) []) (lx'.skip (w.length + 1) [])
  | comment : Look lx lx' w x y (lx.skip (w ++ ' ' :: x).length []) (lx'.skip (w ++ ' ' :: y).length [])

theorem Beside.skip (h : lx.Beside lx') {n : Nat} (inside : n ≤ w.length) :
    (lx.skip n []).Alike w (lx'.skip n []) := ⟨inside, rfl, rfl, rfl, h.hole⟩

theorem Beside.emit (h : lx.Beside lx') {n : Nat} {t t' : Token} (inside : n ≤ w.length)
    (lexeme : t'.lexeme = t.lexeme) : (lx.emit n t []).Alike w (lx'.emit n t' []) :=
  ⟨inside, rfl, congrArg (fun l => [l]) lexeme, rfl, h.hole⟩

section Looks
variable (beside : lx.Beside lx')
include beside

theorem word_alike : (lx.word first (w ++ ' ' :: x)).Alike w (lx'.word first (w ++ ' ' :: y)) := by
  have part : isWordPart ' ' = false := by decide
  simp only [word, takeWhile_blank part]
  refine beside.emit (List.takeWhile_prefix _).length_le ?_
  split <;> rfl

theorem integer_alike {cs : List Char} {value : Nat} (clean : (lx.integer cs value).errors = [])
    (inside : cs.length ≤ w.length + 1) : (lx.integer cs value).Alike w (lx'.integer cs value) := by
  unfold integer at clean ⊢
  dsimp only at clean ⊢
  split at clean
  · rename_i max
    rw [if_pos max, if_pos max]
    exact beside.emit (Nat.sub_le_of_le_add inside) rfl
  · cases clean

theorem radixInteger_alike {radix : Radix} {letter : Char} {w : List Char}
    (clean : (lx.radixInteger radix letter (w ++ ' ' :: x)).errors = []) :
    (lx.radixInteger radix letter (w ++ ' ' :: x)).Alike (letter :: w)
      (lx'.radixInteger radix letter (w ++ ' ' :: y)) := by
  have part : isDigitIn radix.base ' ' = false := by cases radix <;> decide
  simp only [radixInteger, takeWhile_blank part] at clean ⊢
  split at clean
  · cases clean
  · rename_i digits
    rw [if_neg digits, if_neg digits]
    refine integer_alike beside clean ?_
    have := (List.takeWhile_prefix (l := w) (isDigitIn radix.base)).length_le
    simpa using this

theorem decimalNumber_alike (clean : (lx.decimalNumber first (w ++ ' ' :: x)).errors = []) :
    (lx.decimalNumber first (w ++ ' ' :: x)).Alike w (lx'.decimalNumber first (w ++ ' ' :: y)) := by
  have digit : Char.isDigit ' ' = false := by decide
  have digits := (List.takeWhile_prefix (l := w) Char.isDigit).length_le
  have point : lx'.afterPoint = lx.afterPoint := by rw [afterPoint, afterPoint, beside.behind]
  simp only [decimalNumber, takeWhile_blank digit, point, List.length_cons, Nat.add_sub_cancel,
    List.drop_append_of_le_length digits, fraction?_blank] at clean ⊢
  split at clean
  · rename_i fraction hfraction
    refine beside.emit ?_ rfl
    split at hfraction
    · cases hfraction
    · have length := fraction?_length_le hfraction
      rw [List.length_drop] at length
      omega
  · exact integer_alike beside clean (Nat.succ_le_succ digits)

omit beside in
theorem charValue_blank {c : Char} (clean : (lx.charValue c (w ++ ' ' :: x)).2.2 = []) :
    lx'.charValue c (w ++ ' ' :: y) = lx.charValue c (w ++ ' ' :: x) := by
  unfold charValue at clean ⊢
  split at clean
  · rename_i hc
    rw [if_pos hc, if_pos hc]
    by_cases hw : w = []
    · subst hw
      cases clean
    · rw [decode_blank hw] at clean ⊢
      rw [decode_blank hw]
      dsimp only at clean ⊢
      split at clean
      · rename_i known
        rw [if_pos known, if_pos known]
      · cases clean
  · rename_i hc
    rw [if_neg hc, if_neg hc]

omit beside in
theorem charLiteral_cons {c : Char} (hline : c ≠ '\n') (hquote : c ≠ '\x27') (body : List Char) :
    lx.charLiteral (c :: body) =
      let (value, length, errors) := lx.charValue c body
      if ((c :: body).drop length).head? = some '\x27' then
        lx.emit (length + 1) ⟨.charLit, lx.rangeAt 0 (Text.byteLength ((c :: body).take length) + 2),
          some (.char value)⟩ errors
      else
        lx.skip length (errors ++ [⟨.unterminated .charLiteral,
          lx.rangeAt 0 (Text.byteLength ((c :: body).take length) + 1)⟩]) := by
  unfold charLiteral
  split
  · rename_i heq
    cases heq
  · rename_i heq
    exact absurd (List.cons.inj heq).1 hline
  · rename_i heq
    exact absurd (List.cons.inj heq).1 hquote
  · rename_i heq
    cases heq
    rfl

theorem charLiteral_alike (hx : x ⊆ closerMarks) (clean : (lx.charLiteral (w ++ ' ' :: x)).errors = []) :
    (lx.charLiteral (w ++ ' ' :: x)).Alike w (lx'.charLiteral (w ++ ' ' :: y)) := by
  have quote : '\x27' ∉ ' ' :: x := not_mem_blank_closer hx (by decide)
  cases w with
  | nil =>
    rw [List.nil_append, charLiteral_cons (by decide) (by decide)] at clean
    have unclosed : x.head? ≠ some '\x27' := fun h => quote (List.mem_cons_of_mem _ (List.mem_of_head? h))
    have value : lx.charValue ' ' x = (' ', 1, []) := rfl
    simp only [value, List.drop_succ_cons, List.drop_zero, if_neg unclosed] at clean
    cases clean
  | cons c w =>
    by_cases hline : c = '\n'
    · subst hline
      cases clean
    by_cases hquote : c = '\x27'
    · subst hquote
      cases clean
    rw [List.cons_append, charLiteral_cons hline hquote] at clean ⊢
    rw [List.cons_append, charLiteral_cons hline hquote]
    have found (h : (lx.charValue c (w ++ ' ' :: x)).2.2 = []) :
        lx'.charValue c (w ++ ' ' :: y) = lx.charValue c (w ++ ' ' :: x) := charValue_blank h
    generalize lx.charValue c (w ++ ' ' :: x) = value at clean found ⊢
    obtain ⟨value, length, errors⟩ := value
    dsimp only at clean found ⊢
    split at clean
    · rename_i hclosed
      obtain rfl : errors = [] := clean
      rw [← List.cons_append] at hclosed ⊢
      have inside := lt_of_head?_drop hclosed quote
      rw [if_pos hclosed, found rfl]
      dsimp only
      rw [← List.cons_append, if_pos ((head?_drop_append inside _ _).trans hclosed)]
      exact beside.emit inside rfl
    · exact absurd clean (List.append_ne_nil_of_right_ne_nil _ (List.cons_ne_nil _ _))

theorem stringLiteral_alike (hx : x ⊆ closerMarks) (clean : (lx.stringLiteral (w ++ ' ' :: x)).errors = []) :
    (lx.stringLiteral (w ++ ' ' :: x)).Alike w (lx'.stringLiteral (w ++ ' ' :: y)) := by
  unfold stringLiteral at clean ⊢
  split at clean
  · rename_i n hn
    obtain ⟨text, more, htext, rfl⟩ := unescapedLength?_eq_some hn
    have inside : text.length < w.length :=
      length_lt_of_mark htext.symm (not_mem_blank_closer hx (by decide))
    rw [unescapedLength?_append hn inside]
    refine beside.emit inside ?_
    rw [List.take_append_of_le_length inside.le, List.take_append_of_le_length inside.le]
    rfl
  · cases clean

omit beside in
theorem templateText_alike {resumed : Bool} (hx : x ⊆ closerMarks)
    (clean : (lx.templateText (w ++ ' ' :: x) resumed).errors = []) :
    (lx.templateText (w ++ ' ' :: x) resumed).Alike w (lx'.templateText (w ++ ' ' :: y) resumed) := by
  obtain ⟨text, more, htext, hn, -⟩ := segmentLength_spec (w ++ ' ' :: x)
  have same := segmentLength_append (w := w) (x := ' ' :: x) (Prod.eta (segmentLength _)).symm
  unfold templateText at clean ⊢
  generalize segmentLength (w ++ ' ' :: x) = found at htext hn same clean ⊢
  obtain ⟨n, stop⟩ := found
  dsimp only at htext hn same clean ⊢
  -- the last character of the mark stands before the blank
  have inside : stop ≠ .input ∧ n + stop.mark.length ≤ w.length := by
    subst hn
    cases stop with
    | input => cases clean
    | backtick =>
      exact ⟨by decide, length_lt_of_mark htext.symm (not_mem_blank_closer hx (by decide))⟩
    | hole =>
      have opened : (text ++ ['$']) ++ '\x7b' :: more = w ++ ' ' :: x := by
        rw [htext, List.append_assoc]
        rfl
      have length := length_lt_of_mark opened (not_mem_blank_closer hx (by decide))
      rw [List.length_append] at length
      exact ⟨by decide, length⟩
  rw [same inside.1 inside.2 (' ' :: y)]
  have hle : n ≤ w.length := Nat.le_of_add_right_le inside.2
  rw [List.take_append_of_le_length hle, List.take_append_of_le_length hle]
  cases stop with
  | input => cases clean
  | backtick =>
    refine ⟨inside.2, rfl, ?_, rfl, rfl⟩
    rw [List.map_append, List.map_append]
    split <;> rfl
  | hole =>
    refine ⟨inside.2, rfl, ?_, rfl, rfl⟩
    dsimp only
    split
    · rfl
    · split <;> rfl

theorem template_alike (hx : x ⊆ closerMarks) (clean : (lx.template (w ++ ' ' :: x)).errors = []) :
    (lx.template (w ++ ' ' :: x)).Alike w (lx'.template (w ++ ' ' :: y)) := by
  unfold template at clean ⊢
  rw [beside.hole]
  split at clean
  · unfold nestedTemplate at clean
    split at clean <;> cases clean
  · have text : (lx.templateText (w ++ ' ' :: x) false).Alike w (lx'.templateText (w ++ ' ' :: y) false) :=
      templateText_alike hx clean
    exact ⟨text.inside, text.length, congrArg (_ :: ·) text.lexemes, text.errors, text.hole⟩

theorem symbol_alike {k : Kind} (hx : x ⊆ closerMarks) (hk : k.text.toList <+: first :: w)
    (clean : (lx.symbol k (w ++ ' ' :: x)).errors = []) :
    (lx.symbol k (w ++ ' ' :: x)).Alike w (lx'.symbol k (w ++ ' ' :: y)) := by
  cases hhole : k.holeAfter? lx.hole with
  | some hole =>
    rw [symbol_of_holeAfter? hhole, symbol_of_holeAfter? (beside.hole ▸ hhole)]
    exact ⟨Nat.sub_le_of_le_add hk.length_le, rfl, rfl, rfl, rfl⟩
  | none =>
    obtain ⟨rfl, hclosing⟩ := Kind.holeAfter?_eq_none hhole
    rw [symbol_closing hclosing] at clean ⊢
    rw [symbol_closing (beside.hole.trans hclosing)]
    exact templateText_alike hx clean

theorem blockComment_alike {w : List Char} {c : Char} (hx : x ⊆ closerMarks)
    (clean : (lx.blockComment (w ++ ' ' :: x)).errors = []) :
    (lx.blockComment (w ++ ' ' :: x)).Alike (c :: w) (lx'.blockComment (w ++ ' ' :: y)) := by
  unfold blockComment at clean ⊢
  split at clean
  · rename_i n hn
    obtain ⟨closing, rest, hclosing, rfl, comment⟩ := comment_of_blockCommentLength? hn
    obtain ⟨init, rfl⟩ := comment.ends_with_slash
    have inside : init.length < w.length := by
      rw [List.append_assoc] at hclosing
      exact length_lt_of_mark hclosing.symm (not_mem_blank_closer hx (by decide))
    obtain ⟨more, rfl⟩ : init ++ ['/'] <+: w := by
      refine List.prefix_of_prefix_length_le ⟨rest, hclosing.symm⟩ (List.prefix_append w _) ?_
      rw [List.length_append]
      exact inside
    have again := comment.blockCommentLength? (more ++ ' ' :: y)
    rw [← List.append_assoc] at again
    rw [again]
    refine beside.skip ?_
    simp only [List.length_cons, List.length_append]
    omega
  · cases clean

theorem blanks_beside (hx : x ⊆ closerMarks) (hy : y ⊆ closerMarks) :
    Look lx lx' w x y (lx.skip ((w ++ ' ' :: x).takeWhile isBlank).length [])
      (lx'.skip ((w ++ ' ' :: y).takeWhile isBlank).length []) := by
  rcases (List.takeWhile_prefix (l := w) isBlank).length_le.lt_or_eq with inside | whole
  · rw [takeWhile_append_of_lt inside, takeWhile_append_of_lt inside]
    exact .inside (beside.skip inside.le)
  · have through {z : List Char} (hz : z ⊆ closerMarks) :
        ((w ++ ' ' :: z).takeWhile isBlank).length = w.length + 1 := by
      rw [List.takeWhile_append, if_pos whole, List.takeWhile_cons_of_pos rfl, takeWhile_isBlank_closer hz,
        List.length_append]
      rfl
    rw [through hx, through hy]
    exact .blanks

theorem lineComment_beside (hx : x ⊆ closerMarks) (hy : y ⊆ closerMarks) :
    Look lx lx' w x y (lx.skip ((w ++ ' ' :: x).takeWhile (· != '\n')).length [])
      (lx'.skip ((w ++ ' ' :: y).takeWhile (· != '\n')).length []) := by
  have closers : closerMarks.all (· != '\n') = true := by decide
  rcases (List.takeWhile_prefix (l := w) (· != '\n')).length_le.lt_or_eq with inside | whole
  · rw [takeWhile_append_of_lt inside, takeWhile_append_of_lt inside]
    exact .inside (beside.skip inside.le)
  · have through {z : List Char} (hz : z ⊆ closerMarks) :
        (w ++ ' ' :: z).takeWhile (· != '\n') = w ++ ' ' :: z := by
      rw [List.takeWhile_append, if_pos whole, List.takeWhile_cons_of_pos rfl,
        List.takeWhile_eq_self_iff.mpr fun c hc => List.all_eq_true.mp closers c (hz hc)]
    rw [through hx, through hy]
    exact .comment

theorem number_alike (digit : first.isDigit = true) (clean : (lx.scan first (w ++ ' ' :: x)).errors = []) :
    (lx.scan first (w ++ ' ' :: x)).Alike w (lx'.scan first (w ++ ' ' :: y)) := by
  rw [scan_number _ _ digit] at clean ⊢
  rw [scan_number _ _ digit]
  cases w with
  | nil =>
    have decimal (z : List Char) :
        (if first = '0' then ([] ++ ' ' :: z).head?.bind Radix.ofLetter? else none) = none := ite_self none
    rw [decimal] at clean ⊢
    rw [decimal]
    exact decimalNumber_alike beside clean
  | cons letter w =>
    rw [List.cons_append, List.head?_cons] at clean ⊢
    rw [List.cons_append, List.head?_cons]
    split at clean
    · exact radixInteger_alike beside clean
    · exact decimalNumber_alike beside clean

end Looks

theorem ofSymbol?_blank : Kind.ofSymbol? (first :: (w ++ ' ' :: x)) = Kind.ofSymbol? (first :: w) := by
  have noBlank : ∀ k ∈ Kind.symbols, ' ' ∉ k.text.toList := by decide
  have parted : Parted (' ' :: x) := by
    rintro c ⟨⟩
    rfl
  rw [← List.cons_append]
  exact List.find?_congr fun k hk => isPrefixOf_parted (noBlank k hk) parted

/-- If nothing is wrong with the text that the first of two lexers looks at, the second takes as much of it or
    goes past the blank with it. -/
theorem scan_beside (beside : lx.Beside lx') (hx : x ⊆ closerMarks) (hy : y ⊆ closerMarks)
    (clean : (lx.scan first (w ++ ' ' :: x)).errors = []) :
    Look lx lx' w x y (lx.scan first (w ++ ' ' :: x)) (lx'.scan first (w ++ ' ' :: y)) := by
  cases blank : isBlank first with
  | true =>
    rw [scan_blanks _ _ blank, scan_blanks _ _ blank]
    exact blanks_beside beside hx hy
  | false =>
  cases word : isWordStart first with
  | true =>
    rw [scan_wordStart _ _ word, scan_wordStart _ _ word]
    exact .inside (word_alike beside)
  | false =>
  cases digit : first.isDigit with
  | true => exact .inside (number_alike beside digit clean)
  | false =>
  rw [scan_other _ _ blank word digit] at clean ⊢
  rw [scan_other _ _ blank word digit]
  have head : (w ++ ' ' :: y).head? = (w ++ ' ' :: x).head? := by cases w <;> rfl
  rw [head]
  split at clean
  · rename_i hline
    rw [if_pos hline, if_pos hline]
    exact lineComment_beside beside hx hy
  rename_i hline
  rw [if_neg hline, if_neg hline]
  split at clean
  · rename_i hblock
    rw [if_pos hblock, if_pos hblock]
    cases w with
    | nil => cases hblock.2
    | cons c w => exact .inside (blockComment_alike beside hx clean)
  rename_i hblock
  rw [if_neg hblock, if_neg hblock]
  split at clean
  · rename_i hquote
    rw [if_pos hquote, if_pos hquote]
    exact .inside (charLiteral_alike beside hx clean)
  rename_i hquote
  rw [if_neg hquote, if_neg hquote]
  split at clean
  · rename_i hdouble
    rw [if_pos hdouble, if_pos hdouble]
    exact .inside (stringLiteral_alike beside hx clean)
  rename_i hdouble
  rw [if_neg hdouble, if_neg hdouble]
  split at clean
  · rename_i hbacktick
    rw [if_pos hbacktick, if_pos hbacktick]
    exact .inside (template_alike beside hx clean)
  rename_i hbacktick
  rw [if_neg hbacktick, if_neg hbacktick]
  rw [ofSymbol?_blank] at clean ⊢
  rw [ofSymbol?_blank]
  cases hk : Kind.ofSymbol? (first :: w) with
  | none =>
    rw [hk] at clean
    cases clean
  | some k =>
    rw [hk] at clean
    exact .inside (symbol_alike beside hx (Kind.prefix_of_ofSymbol? hk) clean)

end Lexer

end BraceLang
