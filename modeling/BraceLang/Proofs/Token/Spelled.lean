import BraceLang.Proofs.Token.Braces
import BraceLang.Proofs.Token.Stream

/-! Spelling tokens and templates, and reading them back. Tokens are spelled with a blank between each
    two; a template is spelled as its text with holes in it, in which tokens stand.

    Main statement: tokens and templates spelled one after another are read back as tokens that say just
    that, and nothing is found wrong. -/

namespace BraceLang

/-! ### Raw text -/

/-- Whether no mark starts in a text but behind a backslash, and no backslash is left without a
    character. -/
def isRaw (marks : List (List Char)) : List Char → Bool
  | [] => true
  | ['\\'] => false
  | '\\' :: _ :: cs => isRaw marks cs
  | c :: cs => marks.all (fun mark => !mark.isPrefixOf (c :: cs)) && isRaw marks cs

theorem isRaw_induction {marks : List (List Char)} {motive : List Char → Prop} (nil : motive [])
    (escape : ∀ c cs, motive cs → motive ('\\' :: c :: cs))
    (plain : ∀ c cs, c ≠ '\\' → (∀ mark ∈ marks, ¬mark <+: c :: cs) → motive cs → motive (c :: cs))
    {text : List Char} (raw : isRaw marks text = true) : motive text := by
  fun_induction isRaw marks text with
  | case1 => exact nil
  | case2 => cases raw
  | case3 c cs ih => exact escape c cs (ih raw)
  | case4 c cs hlast hescape ih =>
    rw [Bool.and_eq_true, List.all_eq_true] at raw
    refine plain c cs ?_ ?_ (ih raw.2)
    · rintro rfl
      cases cs with
      | nil => exact hlast rfl rfl
      | cons d ds => exact hescape d ds rfl rfl
    · intro mark hmark starts
      have none := raw.1 mark hmark
      rw [List.isPrefixOf_iff_prefix.mpr starts] at none
      cases none

theorem unescapedLength?_of_isRaw {mark : Char} {text : List Char} (hmark : mark ≠ '\\')
    (raw : isRaw [[mark]] text = true) (more : List Char) :
    unescapedLength? mark (text ++ mark :: more) = some text.length := by
  refine isRaw_induction (motive := fun text => unescapedLength? mark (text ++ mark :: more) = some text.length)
    ?_ ?_ ?_ raw
  · rw [List.nil_append, unescapedLength?.eq_4 _ _ _ (fun h _ => hmark h) (fun _ _ h _ => hmark h), if_pos rfl]
    rfl
  · intro c cs ih
    rw [List.cons_append, List.cons_append, unescapedLength?, ih]
    rfl
  · intro c cs hc hmarks ih
    have hne : c ≠ mark := by
      rintro rfl
      exact hmarks [c] List.mem_cons_self ⟨cs, rfl⟩
    rw [List.cons_append, unescapedLength?.eq_4 _ _ _ (fun h _ => hc h) (fun _ _ h _ => hc h), if_neg hne, ih]
    rfl

/-- The marks that end the text of a template. -/
def segmentMarks : List (List Char) := [SegmentEnd.backtick.mark, SegmentEnd.hole.mark]

theorem segmentLength_of_isRaw {text : List Char} (raw : isRaw segmentMarks text = true) (stop : SegmentEnd)
    (hstop : stop ≠ .input) (more : List Char) :
    segmentLength (text ++ (stop.mark ++ more)) = (text.length, stop) := by
  refine isRaw_induction (motive := fun text => segmentLength (text ++ (stop.mark ++ more)) = (text.length, stop))
    ?_ ?_ ?_ raw
  · cases stop with
    | backtick => rfl
    | hole => rfl
    | input => exact absurd rfl hstop
  · intro c cs ih
    rw [List.cons_append, List.cons_append, segmentLength, ih]
    rfl
  · intro c cs hc hmarks ih
    have backtick : c ≠ '\x60' := by
      rintro rfl
      exact hmarks _ List.mem_cons_self ⟨cs, rfl⟩
    -- a dollar sign at the end of the text opens no hole together with the mark behind it
    have hole {rest : List Char} (hdollar : c = '$') (heq : cs ++ (stop.mark ++ more) = '\x7b' :: rest) :
        False := by
      cases cs with
      | nil =>
        cases stop with
        | backtick => cases heq
        | hole => cases heq
        | input => exact hstop rfl
      | cons d ds =>
        cases heq
        subst hdollar
        exact hmarks _ (List.mem_cons_of_mem _ List.mem_cons_self) ⟨ds, rfl⟩
    rw [List.cons_append, segmentLength.eq_6 _ _ (fun h _ => hc h) (fun _ _ h _ => hc h) backtick
      (fun _ h heq => hole h heq), ih]
    rfl

/-! ### Tokens and how they are spelled -/

/-- How a lexeme can be spelled. Integers may start with zeros, and strings and characters stand as they
    are between quotes. -/
inductive Spells : List Char → Lexeme → Prop where
  | proper {l : Lexeme} (h : l.Proper) : Spells l.chars l
  | digits {first : Char} {rest : List Char} (h : ∀ c ∈ first :: rest, c.isDigit = true)
    (max : positional 10 (first :: rest) ≤ maxInteger) :
    Spells (first :: rest) (.int (positional 10 (first :: rest)))
  | string {text : List Char} (raw : isRaw [['"']] text = true) :
    Spells ('"' :: (text ++ ['"'])) ⟨.stringLit, some (.text (String.ofList text))⟩
  | char {c : Char} (h : c ∉ ['\x27', '\\', '\n']) : Spells ['\x27', c, '\x27'] ⟨.charLit, some (.char c)⟩

/-- A token that stands for itself, with its spelling. -/
structure Simple where
  chars : List Char
  lexeme : Lexeme
  spells : Spells chars lexeme

/-- Text of a template. -/
structure Segment where
  chars : List Char
  raw : isRaw segmentMarks chars = true

/-- A hole of a template with tokens whose braces close each other, and the text between it and the next
    hole or the end. -/
structure Hole where
  tokens : List Simple
  balanced : Kind.level? 0 (tokens.map (·.lexeme.kind)) = some 0
  text : Segment

/-- A token, or a template of text and holes. -/
inductive Item where
  | simple (s : Simple)
  | template (text : Segment) (holes : List Hole)

/-- The characters of texts with a blank between each two. -/
def spacedChars (texts : List (List Char)) : List Char := [' '].intercalate texts

namespace Segment

def lexeme (s : Segment) : Lexeme := ⟨.templateText, some (.text (String.ofList s.chars))⟩

/-- The lexeme of the text, if there is any text. -/
def lexeme? (s : Segment) : List Lexeme := if s.chars.isEmpty then [] else [s.lexeme]

/-- The text and holes of a template after its opening. -/
def templateChars (text : Segment) : List Hole → List Char
  | [] => text.chars ++ ['\x60']
  | hole :: holes => text.chars ++ (['$', '\x7b', ' '] ++ (spacedChars (hole.tokens.map (·.chars)) ++
      ([' ', '\x7d'] ++ hole.text.templateChars holes)))

/-- What the text and holes of a template say; `resumed` if they stand behind a hole. Empty text says
    nothing but between two holes. -/
def templateLexemes (text : Segment) (resumed : Bool) : List Hole → List Lexeme
  | [] => text.lexeme? ++ [.bare .templateClose]
  | hole :: holes => (if resumed then [text.lexeme] else text.lexeme?) ++
      (hole.tokens.map (·.lexeme) ++ hole.text.templateLexemes true holes)

end Segment

namespace Item

def chars : Item → List Char
  | simple s => s.chars
  | template text holes => '\x60' :: text.templateChars holes

def lexemes : Item → List Lexeme
  | simple s => [s.lexeme]
  | template text holes => .bare .templateOpen :: text.templateLexemes false holes

/-- The text of items with a blank between each two. -/
def spelled (items : List Item) : String := String.ofList (spacedChars (items.map chars))

end Item

/-! ### One look at a token -/

/-- The braces open in the hole of a template behind a token, as in `Lexer`; nothing if the token is the
    brace that closes the hole. -/
def Kind.holeAfter? : Kind → Option Nat → Option (Option Nat)
  | .lBrace, some depth => some (some (depth + 1))
  | .rBrace, some 0 => none
  | .rBrace, some (depth + 1) => some (some depth)
  | _, hole => some hole

theorem Kind.holeAfter?_of_isPlain {k : Kind} (h : k.isPlain = true) (hole : Option Nat) :
    k.holeAfter? hole = some hole := by
  unfold holeAfter?
  split
  case h_1 | h_2 | h_3 => cases h
  case h_4 => rfl

namespace Lexer
variable (lx : Lexer) {more : List Char}

/-- One look at a text takes it whole and gives a token that says `l`, whatever stands behind the next
    blank. -/
def ScansAs (cs : List Char) (l : Lexeme) (more : List Char) : Prop :=
  ∃ first rest token, cs = first :: rest ∧ isBlank first = false ∧ token.lexeme = l ∧
    ∀ hole, l.kind.holeAfter? lx.hole = some hole →
      lx.scan first (rest ++ more) = ⟨rest.length, [token], [], hole⟩

variable {lx}

theorem scansAs_of_emit {l : Lexeme} {first : Char} {rest : List Char} {token : Token}
    (blank : isBlank first = false) (htoken : token.lexeme = l) (plain : l.kind.isPlain = true)
    (hscan : lx.scan first (rest ++ more) = lx.emit rest.length token []) :
    lx.ScansAs (first :: rest) l more := by
  refine ⟨first, rest, token, rfl, blank, htoken, fun hole hhole => ?_⟩
  rw [Kind.holeAfter?_of_isPlain plain] at hhole
  rw [hscan, ← Option.some.inj hhole]
  rfl

theorem scansAs_of_word {l : Lexeme} (h : isWord l.text = true) (plain : l.kind.isPlain = true)
    (hl : ∀ range, (wordToken l.text range).lexeme = l) (parted : Parted more) :
    lx.ScansAs l.chars l more := by
  obtain ⟨first, rest, range, hchars, blank, hscan⟩ := lx.scan_word h parted
  rw [Lexeme.chars, hchars]
  exact scansAs_of_emit blank (hl range) plain hscan

theorem scansAs_of_digits {first : Char} {rest : List Char} (h : ∀ c ∈ first :: rest, c.isDigit = true)
    (max : positional 10 (first :: rest) ≤ maxInteger) (parted : Parted more) :
    lx.ScansAs (first :: rest) (.int (positional 10 (first :: rest))) more :=
  scansAs_of_emit (isBlank_eq_false (h first List.mem_cons_self) (by decide)) rfl rfl
    (lx.scan_digits h max parted)

theorem symbol_of_holeAfter? {k : Kind} {hole : Option Nat} (h : k.holeAfter? lx.hole = some hole)
    (rest : List Char) : lx.symbol k rest =
      ⟨k.text.toList.length - 1, [.bare k (lx.rangeAt 0 k.text.toList.length)], [], hole⟩ := by
  unfold symbol
  dsimp only
  split
  · rename_i hhole
    rw [hhole] at h
    cases h
    rfl
  · rename_i hhole
    rw [hhole] at h
    cases h
  · rename_i hhole
    rw [hhole] at h
    cases h
    rfl
  · rename_i k _ _ hopen hclose hinner
    have same : Kind.holeAfter? k lx.hole = some lx.hole := by
      unfold Kind.holeAfter?
      split
      · exact absurd ‹_› (hopen _ rfl)
      · exact absurd ‹_› (hclose rfl)
      · exact absurd ‹_› (hinner _ rfl)
      · rfl
    rw [same] at h
    cases h
    rfl

theorem scansAs_of_proper {l : Lexeme} (h : l.Proper) (parted : Parted more) :
    lx.ScansAs l.chars l more := by
  cases h with
  | @name text h =>
    rw [isName, Bool.and_eq_true, Option.isNone_iff_eq_none] at h
    refine scansAs_of_word h.1 rfl (fun range => ?_) parted
    show (wordToken text range).lexeme = .name text
    rw [wordToken, h.2]
    rfl
  | @int n h =>
    obtain ⟨first, rest, hn⟩ := List.exists_cons_of_ne_nil (Nat.toDigits_ne_nil (n := n) (b := 10))
    have digits : ∀ c ∈ first :: rest, c.isDigit = true := by
      intro c hc
      exact Nat.isDigit_of_mem_toDigits (by decide) (by decide) (hn ▸ hc)
    have value : positional 10 (first :: rest) = n := by rw [← hn, positional_toDigits]
    have hchars : Lexeme.chars (.int n) = first :: rest := Nat.toList_repr.trans hn
    rw [hchars]
    exact value ▸ scansAs_of_digits digits (value ▸ h) parted
  | bool b =>
    cases b with
    | true => exact scansAs_of_word (by decide) rfl (fun _ => rfl) parted
    | false => exact scansAs_of_word (by decide) rfl (fun _ => rfl) parted
  | @word k hk =>
    have words : ∀ k ∈ Kind.nullLit :: Kind.keywords,
        isWord k.text = true ∧ k.isPlain = true ∧ k ≠ .boolLit ∧ Kind.ofWord? k.text = some k := by decide
    obtain ⟨hword, hplain, hbool, hkind⟩ := words k hk
    refine scansAs_of_word hword hplain (fun range => ?_) parted
    show (wordToken k.text range).lexeme = .bare k
    rw [wordToken, hkind]
    split
    · rename_i heq
      exact absurd (Option.some.inj heq) hbool
    · rename_i heq
      rw [Option.some.inj heq]
      rfl
    · rename_i heq
      cases heq
  | @symbol k hk =>
    have nonempty : ∀ k ∈ Kind.symbols, k.text.toList ≠ [] := by decide
    obtain ⟨first, rest, htext⟩ := List.exists_cons_of_ne_nil (nonempty k hk)
    have plain : startsSymbol first = true := Kind.startsSymbol_of_mem_symbols hk (htext ▸ rfl)
    simp only [startsSymbol, Bool.and_eq_true, Bool.not_eq_true'] at plain
    refine ⟨first, rest, .bare k (lx.rangeAt 0 (rest.length + 1)), htext, plain.1.1.1, rfl, ?_⟩
    intro hole hhole
    have hkind : k.holeAfter? lx.hole = some hole := hhole
    rw [lx.scan_symbol hk htext parted, symbol_of_holeAfter? hkind, htext]
    rfl

theorem scan_string {text : List Char} (raw : isRaw [['"']] text = true) :
    ∃ range, lx.scan '"' ((text ++ ['"']) ++ more) =
      lx.emit (text ++ ['"']).length ⟨.stringLit, range, some (.text (String.ofList text))⟩ [] := by
  refine ⟨lx.rangeAt 0 (Text.byteLength text + 2), ?_⟩
  have hlength := unescapedLength?_of_isRaw (by decide) raw more
  show lx.stringLiteral ((text ++ ['"']) ++ more) = _
  rw [List.append_assoc, List.singleton_append, stringLiteral, hlength]
  dsimp only
  rw [List.take_left, List.length_append]
  rfl

theorem scan_char {c : Char} (h : c ∉ ['\x27', '\\', '\n']) :
    ∃ range, lx.scan '\x27' ([c, '\x27'] ++ more) =
      lx.emit 2 ⟨.charLit, range, some (.char c)⟩ [] := by
  simp only [List.mem_cons, List.not_mem_nil, or_false, not_or] at h
  obtain ⟨quote, backslash, newline⟩ := h
  refine ⟨lx.rangeAt 0 (Text.byteLength [c] + 2), ?_⟩
  show lx.charLiteral (c :: '\x27' :: more) = _
  unfold charLiteral
  split
  · rename_i heq
    cases heq
  · rename_i heq
    cases heq
    exact absurd rfl newline
  · rename_i heq
    cases heq
    exact absurd rfl quote
  · rename_i heq
    cases heq
    simp only [charValue, if_neg backslash]
    rfl

theorem scansAs_of_spells {cs : List Char} {l : Lexeme} (h : Spells cs l) (parted : Parted more) :
    lx.ScansAs cs l more := by
  cases h with
  | proper h => exact scansAs_of_proper h parted
  | digits h max => exact scansAs_of_digits h max parted
  | string raw =>
    obtain ⟨range, hscan⟩ := scan_string raw
    exact scansAs_of_emit rfl rfl rfl hscan
  | char h =>
    obtain ⟨range, hscan⟩ := scan_char h
    exact scansAs_of_emit rfl rfl rfl hscan

end Lexer

/-! ### Reading on -/

theorem TokenStream.says_iff {stream : TokenStream} {ls : List Lexeme} :
    stream.Says ls ↔ stream.toList.map Token.lexeme = ls ∧ stream.errors = [] := by
  have lexemes : stream.toList.map Token.lexeme = stream.tokens.map (·.token.lexeme) := List.map_map
  have faultless : stream.errors = [] ↔ ∀ lexed ∈ stream.eof :: stream.tokens, lexed.errors = [] := by
    rw [errors, List.append_eq_nil_iff, List.flatMap_eq_nil_iff, List.forall_mem_cons, and_comm]
  rw [lexemes, faultless]
  exact ⟨fun h => ⟨h.lexemes, h.faultless⟩, fun h => ⟨h.1, h.2⟩⟩

/-- From the characters `cs`, with that many braces open in a hole, lexers read tokens that say just
    `ls`, and find nothing wrong. -/
def Lexes (hole : Option Nat) (cs : List Char) (ls : List Lexeme) : Prop :=
  ∀ lx : Lexer, lx.pending = [] → lx.hole = hole → lx.cursor.ahead = cs → lx.stream.Says ls

namespace Lexes
variable {hole hole' : Option Nat} {cs more : List Char} {l : Lexeme} {ls : List Lexeme}

theorem nil : Lexes none [] [] := by
  intro lx hpending hhole hahead
  obtain ⟨hlist, herrors⟩ := Lexer.stream_end hpending hahead hhole
  exact TokenStream.says_iff.mpr ⟨by rw [hlist]; rfl, herrors⟩

/-- One look and then the text behind it. -/
theorem scan {lx : Lexer} {first : Char} {rest : List Char} {s : Scan} (pending : lx.pending = [])
    (ahead : lx.cursor.ahead = first :: rest) (hscan : lx.scan first rest = s) (errors : s.errors = [])
    (later : Lexes s.hole (rest.drop s.length) ls) :
    lx.stream.Says (s.tokens.map Token.lexeme ++ ls) := by
  have puts := Lexer.stream_scan pending ahead
  rw [hscan] at puts
  have hahead : (lx.after s).settled.cursor.ahead = rest.drop s.length := by
    show lx.cursor.ahead.drop (s.length + 1) = _
    rw [ahead, List.drop_succ_cons]
  obtain ⟨hlexemes, herrors⟩ := TokenStream.says_iff.mp (later (lx.after s).settled rfl rfl hahead)
  refine TokenStream.says_iff.mpr ⟨?_, ?_⟩
  · rw [puts.tokens, List.map_append, hlexemes]
  · rw [puts.errors, errors, herrors]
    rfl

theorem blanks (bs : List Char) (hbs : ∀ c ∈ bs, isBlank c = true)
    (nearest : ∀ c ∈ cs.head?, isBlank c = false) (h : Lexes hole cs ls) : Lexes hole (bs ++ cs) ls := by
  cases bs with
  | nil => exact h
  | cons b bs =>
    intro lx hpending hhole hahead
    obtain ⟨hb, hbs⟩ := List.forall_mem_cons.mp hbs
    have taken : (bs ++ cs).takeWhile isBlank = bs := by
      rw [List.takeWhile_append_of_pos hbs]
      cases cs with
      | nil => rw [List.takeWhile_nil, List.append_nil]
      | cons c cs => rw [List.takeWhile_cons_of_neg (by rw [nearest c rfl]; decide), List.append_nil]
    have hscan : lx.scan b (bs ++ cs) = lx.skip bs.length [] := by
      unfold Lexer.scan
      rw [if_pos hb, taken]
    refine Lexes.scan hpending hahead hscan rfl ?_
    show Lexes lx.hole ((bs ++ cs).drop bs.length) ls
    rw [hhole, List.drop_left]
    exact h

theorem simple (s : Simple) (parted : Parted more) (hhole : s.lexeme.kind.holeAfter? hole = some hole')
    (h : Lexes hole' more ls) : Lexes hole (s.chars ++ more) (s.lexeme :: ls) := by
  intro lx hpending hole_eq hahead
  obtain ⟨first, rest, token, hchars, -, htoken, hscan⟩ : lx.ScansAs s.chars s.lexeme more :=
    Lexer.scansAs_of_spells s.spells parted
  rw [hchars] at hahead
  rw [← htoken]
  refine Lexes.scan hpending hahead (hscan hole' (hole_eq ▸ hhole)) rfl ?_
  show Lexes hole' ((rest ++ more).drop rest.length) ls
  rw [List.drop_left]
  exact h

theorem blank (nearest : ∀ c ∈ cs.head?, isBlank c = false) (h : Lexes hole cs ls) :
    Lexes hole (' ' :: cs) ls :=
  blanks [' '] (List.forall_mem_singleton.mpr rfl) nearest h

end Lexes

theorem Simple.head (s : Simple) (more : List Char) : ∀ c ∈ (s.chars ++ more).head?, isBlank c = false := by
  -- whichever lexer looks at it
  obtain ⟨first, rest, token, hchars, blank, -⟩ :
      (Lexer.start (.ofText 0 "" "")).ScansAs s.chars s.lexeme [] :=
    Lexer.scansAs_of_spells s.spells fun _ h => by cases h
  rw [hchars]
  rintro c ⟨⟩
  exact blank

/-! ### Holes -/

/-- The characters of texts that each follow a blank. -/
def blankedChars (texts : List (List Char)) : List Char := texts.flatMap (' ' :: ·)

theorem spacedChars_cons (text : List Char) (texts : List (List Char)) :
    spacedChars (text :: texts) = text ++ blankedChars texts := intercalate_cons ' ' text texts

theorem parted_blankedChars (texts : List (List Char)) : Parted (blankedChars texts) := by
  cases texts with
  | nil =>
    intro c h
    cases h
  | cons text texts =>
    rintro c ⟨⟩
    rfl

theorem parted_blankedChars_blank (texts : List (List Char)) (more : List Char) :
    Parted (blankedChars texts ++ (' ' :: more)) := by
  have last : blankedChars texts ++ (' ' :: more) = blankedChars (texts ++ [more]) := by
    simp [blankedChars]
  rw [last]
  exact parted_blankedChars _

/-- In a hole, braces are counted. -/
theorem Kind.holeAfter?_some (k : Kind) (depth : Nat) :
    k.holeAfter? (some depth) = (level? depth [k]).map some := by
  cases k
  case rBrace => cases depth <;> rfl
  all_goals rfl

namespace Lexes
variable {cs : List Char} {ls : List Lexeme}

/-- Tokens with balanced braces in a hole, up to the brace that closes it. -/
theorem blankedTokens {tokens : List Simple} {depth : Nat}
    (balanced : Kind.level? depth (tokens.map (·.lexeme.kind)) = some 0)
    (h : Lexes (some 0) ('\x7d' :: cs) ls) :
    Lexes (some depth) (blankedChars (tokens.map (·.chars)) ++ (' ' :: '\x7d' :: cs))
      (tokens.map (·.lexeme) ++ ls) := by
  induction tokens generalizing depth with
  | nil =>
    obtain rfl : depth = 0 := Option.some.inj balanced
    exact h.blank (by rintro c ⟨⟩; rfl)
  | cons s tokens ih =>
    rw [List.map_cons, Kind.level?_cons] at balanced
    obtain ⟨depth', hs, hothers⟩ := Option.bind_eq_some_iff.mp balanced
    have others := ih hothers
    have hhole : s.lexeme.kind.holeAfter? (some depth) = some (some depth') := by
      rw [Kind.holeAfter?_some, hs]
      rfl
    have first := others.simple s (parted_blankedChars_blank _ _) hhole
    have whole := first.blank (s.head _)
    rw [← List.append_assoc, ← List.cons_append] at whole
    exact whole

theorem spacedTokens {tokens : List Simple}
    (balanced : Kind.level? 0 (tokens.map (·.lexeme.kind)) = some 0) (h : Lexes (some 0) ('\x7d' :: cs) ls) :
    Lexes (some 0) (' ' :: (spacedChars (tokens.map (·.chars)) ++ (' ' :: '\x7d' :: cs)))
      (tokens.map (·.lexeme) ++ ls) := by
  cases tokens with
  | nil =>
    have blank : ∀ c ∈ [' ', ' '], isBlank c = true :=
      List.forall_mem_cons.mpr ⟨rfl, List.forall_mem_singleton.mpr rfl⟩
    exact h.blanks [' ', ' '] blank (by rintro c ⟨⟩; rfl)
  | cons s tokens =>
    have whole := blankedTokens balanced h
    rw [List.map_cons, spacedChars_cons]
    exact whole

end Lexes

/-! ### Templates -/

namespace Lexer
variable (lx : Lexer) (text : Segment) (resumed : Bool) (more : List Char)

/-- The token of a text, if there is any text. -/
def segmentTokens : List Token := if text.chars.isEmpty then [] else [lx.segmentToken text.chars]

theorem lexeme_segmentTokens : (lx.segmentTokens text).map Token.lexeme = text.lexeme? := by
  unfold segmentTokens Segment.lexeme?
  split
  · rfl
  · rfl

theorem templateText_backtick : ∃ close : Range,
    lx.templateText (text.chars ++ (['\x60'] ++ more)) resumed = ⟨text.chars.length + 1,
      lx.segmentTokens text ++ [.bare .templateClose close], [], none⟩ := by
  have hlength : segmentLength (text.chars ++ (['\x60'] ++ more)) = (text.chars.length, .backtick) :=
    segmentLength_of_isRaw text.raw .backtick (by decide) more
  unfold templateText
  rw [hlength]
  dsimp only
  rw [List.take_left]
  exact ⟨_, rfl⟩

theorem templateText_hole :
    lx.templateText (text.chars ++ (['$', '\x7b'] ++ more)) resumed = ⟨text.chars.length + 2,
      if resumed then [lx.segmentToken text.chars] else lx.segmentTokens text, [], some 0⟩ := by
  have hlength : segmentLength (text.chars ++ (['$', '\x7b'] ++ more)) = (text.chars.length, .hole) :=
    segmentLength_of_isRaw text.raw .hole (by decide) more
  unfold templateText
  rw [hlength]
  dsimp only
  rw [List.take_left]
  rfl

theorem scan_rBrace (rest : List Char) : lx.scan '\x7d' rest = lx.symbol .rBrace rest := rfl

end Lexer

/-- The text and holes of a template after its opening, or after the brace that closes a hole: one look
    takes the text, and the others the holes. -/
theorem Lexes.templateText {more : List Char} {ls : List Lexeme} (h : Lexes none more ls) (text : Segment)
    (holes : List Hole) (resumed : Bool) (lx : Lexer) :
    let s := lx.templateText (text.templateChars holes ++ more) resumed
    s.errors = [] ∧ ∃ later, Lexes s.hole ((text.templateChars holes ++ more).drop s.length) later ∧
      s.tokens.map Token.lexeme ++ later = text.templateLexemes resumed holes ++ ls := by
  induction holes generalizing text resumed lx with
  | nil =>
    obtain ⟨close, htext⟩ := lx.templateText_backtick text resumed more
    rw [Segment.templateChars, List.append_assoc, htext]
    refine ⟨rfl, ls, ?_, ?_⟩
    · show Lexes none ((text.chars ++ (['\x60'] ++ more)).drop (text.chars.length + 1)) ls
      rw [List.drop_length_add_append]
      exact h
    · rw [List.map_append, lx.lexeme_segmentTokens]
      rfl
  | cons hole holes ih =>
    have closing : Lexes (some 0) ('\x7d' :: (hole.text.templateChars holes ++ more))
        (hole.text.templateLexemes true holes ++ ls) := by
      intro lx hpending hhole hahead
      obtain ⟨herrors, later, hlater, hlexemes⟩ := ih hole.text true lx
      have hscan := (lx.scan_rBrace (hole.text.templateChars holes ++ more)).trans
        (Lexer.symbol_closing hhole _)
      rw [← hlexemes]
      exact Lexes.scan hpending hahead hscan herrors hlater
    have tokens := closing.spacedTokens hole.balanced
    have chars : text.templateChars (hole :: holes) ++ more = text.chars ++ (['$', '\x7b'] ++
        (' ' :: (spacedChars (hole.tokens.map (·.chars)) ++
          (' ' :: '\x7d' :: (hole.text.templateChars holes ++ more))))) := by
      simp only [Segment.templateChars, List.append_assoc, List.cons_append, List.nil_append]
    rw [chars, lx.templateText_hole text resumed]
    refine ⟨rfl, hole.tokens.map (·.lexeme) ++ (hole.text.templateLexemes true holes ++ ls), ?_, ?_⟩
    · show Lexes (some 0) (List.drop (text.chars.length + 2) _) _
      rw [List.drop_length_add_append]
      exact tokens
    · rw [Segment.templateLexemes, List.append_assoc, List.append_assoc]
      congr 1
      cases resumed with
      | true => rfl
      | false => exact lx.lexeme_segmentTokens text

/-! ### Items -/

namespace Item

theorem head (item : Item) (more : List Char) : ∀ c ∈ (item.chars ++ more).head?, isBlank c = false := by
  cases item with
  | simple s => exact s.head more
  | template text holes =>
    rintro c ⟨⟩
    rfl

theorem lexes (item : Item) {more : List Char} {ls : List Lexeme} (parted : Parted more)
    (h : Lexes none more ls) : Lexes none (item.chars ++ more) (item.lexemes ++ ls) := by
  cases item with
  | simple s =>
    have outside : s.lexeme.kind.holeAfter? none = some none := by cases s.lexeme.kind <;> rfl
    exact h.simple s parted outside
  | template text holes =>
    intro lx hpending hhole hahead
    obtain ⟨herrors, later, hlater, hlexemes⟩ := h.templateText text holes false lx
    have hscan : lx.scan '\x60' (text.templateChars holes ++ more) = lx.template _ := rfl
    unfold Lexer.template at hscan
    rw [hhole] at hscan
    have whole := Lexes.scan hpending hahead hscan herrors hlater
    rw [List.map_cons, List.cons_append, hlexemes] at whole
    exact whole

theorem blanked_lexes (items : List Item) :
    Lexes none (blankedChars (items.map chars)) (items.flatMap lexemes) := by
  induction items with
  | nil => exact .nil
  | cons item items ih =>
    exact (item.lexes (parted_blankedChars _) ih).blank (item.head _)

theorem spaced_lexes (items : List Item) :
    Lexes none (spacedChars (items.map chars)) (items.flatMap lexemes) := by
  cases items with
  | nil => exact .nil
  | cons item items =>
    rw [List.map_cons, spacedChars_cons]
    exact item.lexes (parted_blankedChars _) (blanked_lexes items)

theorem exists_of_proper {ls : List Lexeme} (proper : ∀ l ∈ ls, l.Proper) :
    ∃ items : List Item, items.map chars = ls.map Lexeme.chars ∧ items.flatMap lexemes = ls := by
  induction ls with
  | nil => exact ⟨[], rfl, rfl⟩
  | cons l ls ih =>
    obtain ⟨hl, hls⟩ := List.forall_mem_cons.mp proper
    obtain ⟨items, hchars, hlexemes⟩ := ih hls
    refine ⟨simple ⟨l.chars, l, .proper hl⟩ :: items, ?_, ?_⟩
    · rw [List.map_cons, List.map_cons, hchars]
      rfl
    · rw [List.flatMap_cons, hlexemes]
      rfl

end Item

namespace TokenStream

/-- Tokens and templates with a blank between each two are read back. -/
theorem ofSource_spelled (items : List Item) (id : Nat) (name : String) :
    (ofSource (.ofText id name (Item.spelled items))).Says (items.flatMap Item.lexemes) := by
  refine Item.spaced_lexes items (Lexer.start _) rfl rfl ?_
  show (String.ofList _).toList = _
  rw [String.toList_ofList]

-- between two holes even empty text has a token
example : Item.lexemes (.template ⟨['a'], rfl⟩ [⟨[], rfl, ⟨[], rfl⟩⟩, ⟨[], rfl, ⟨[], rfl⟩⟩]) =
    [.bare .templateOpen, ⟨.templateText, some (.text "a")⟩, ⟨.templateText, some (.text "")⟩,
      .bare .templateClose] := by
  decide

/-- Lexemes with a blank between each two are read back. -/
theorem ofSource_spaced {ls : List Lexeme} (proper : ∀ l ∈ ls, l.Proper) (id : Nat) (name : String) :
    (ofSource (.ofText id name (spaced ls))).Says ls := by
  obtain ⟨items, hchars, hlexemes⟩ := Item.exists_of_proper proper
  have lexes := Item.spaced_lexes items
  rw [hchars, hlexemes] at lexes
  refine lexes (Lexer.start _) rfl rfl ?_
  show (spaced ls).toList = _
  rw [spaced, String.toList_intercalate, List.map_map]
  rfl

end TokenStream

end BraceLang
