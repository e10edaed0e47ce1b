import BraceLang.Proofs.Token.Calls
import BraceLang.Proofs.Token.Digits
import BraceLang.Proofs.Token.Templates

/-! How tokens are written. A token is read from the characters of its range alone, but for how far they reach,
    which what stands behind them decides (`Written`); what was wrong on the way to it lies before it.

    Main statement: every call of the lexer of a source gives a token that is written in the source
    (`Lexer.call_isWritten`). -/

namespace BraceLang

open Text (byteLength)

/-- Whether the tokens of a kind are spelled alike and are no marks of a template. -/
def Kind.isFixed (k : Kind) : Bool := k.text != "" && k != templateOpen && k != templateClose

/-- Errors of which none is about a number. -/
def NumberFree (errors : List LexError) : Prop := ∀ e ∈ errors, e.cause.code ≠ .malformedNumber

/-- How a token in a range is written: what the characters before `rest` say, and what is wrong with them. -/
inductive Written (rest : List Char) (range : Range) : List Char → Lexeme → List LexError → Prop where
  | fixed {k : Kind} (h : k.isFixed = true) : Written rest range k.text.toList (.bare k) []
  | name {text : String} (h : isName text = true) : Written rest range text.toList (.name text) []
  | bool (value : Bool) : Written rest range (Lexeme.bool value).chars (.bool value) []
  | int {cs : List Char} {value : Nat} (h : Numeral rest cs (some value)) (small : value < 2 ^ 64) :
    Written rest range cs (.int value) []
  | tooLarge {cs : List Char} {value : Nat} (h : Numeral rest cs (some value)) (large : 2 ^ 64 ≤ value) :
    Written rest range cs (.bare .invalid) [⟨.integerTooLarge, range⟩]
  | malformed {cs : List Char} (h : Numeral rest cs none) (radix : Radix) :
    Written rest range cs (.bare .invalid) [⟨.malformedNumber radix, range⟩]
  /-- A number with a fraction or an exponent. -/
  | float {ds more : List Char} {mark : Char} (nonempty : ds ≠ []) (h : ∀ c ∈ ds, digitRank c < 10)
    (hmark : mark ∈ ['.', 'e', 'E']) (value : Decimal.Double) :
    Written rest range (ds ++ mark :: more) ⟨.floatLit, some (.float value)⟩ []
  | char {c : Char} (h : c ∉ ['\x27', '\\', '\n']) :
    Written rest range ['\x27', c, '\x27'] ⟨.charLit, some (.char c)⟩ []
  | escape {cs : List Char} {value : Char} (h : Escape.Spells cs value) {errors : List LexError} (free : NumberFree errors) :
    Written rest range ('\x27' :: '\\' :: (cs ++ ['\x27'])) ⟨.charLit, some (.char value)⟩ errors
  | string (text : List Char) :
    Written rest range ('"' :: (text ++ ['"'])) ⟨.stringLit, some (.text (String.ofList text))⟩ []
  /-- A string that nothing closes takes in the rest of the text. -/
  | openString (text : List Char) (stop : rest = []) (opening : Range) :
    Written rest range ('"' :: text) ⟨.stringLit, some (.text (String.ofList text))⟩
      [⟨.unterminated .stringLiteral, opening⟩]
  | templateOpen {errors : List LexError} (free : NumberFree errors) :
    Written rest range ['\x60'] (.bare .templateOpen) errors
  | templateText (text : List Char) {errors : List LexError} (free : NumberFree errors) :
    Written rest range text ⟨.templateText, some (.text (String.ofList text))⟩ errors
  | templateClose {errors : List LexError} (free : NumberFree errors) :
    Written rest range ['\x60'] (.bare .templateClose) errors
  /-- A template that the text ends in is closed by a token without text. -/
  | cut (stop : rest = []) {errors : List LexError} (free : NumberFree errors) :
    Written rest range [] (.bare .templateClose) errors
  | eof (stop : rest = []) : Written rest range [] (.bare .eof) []

/-- An error that marks text up to `pos` at most, and no number. -/
structure LexError.Passed (pos : Nat) (e : LexError) : Prop where
  code : e.cause.code ≠ .malformedNumber
  stop : e.range.stop.pos ≤ pos

/-- A token is written in a source, and what was wrong on the way to it lies before it. -/
structure Lexed.WrittenIn (source : Source) (x : Lexed) (behind cs rest : List Char) (own : List LexError) :
    Prop where
  chars : source.chars = behind ++ (cs ++ rest)
  range : x.token.range = source.range (byteLength behind) (byteLength behind + byteLength cs)
  errors : ∃ earlier, x.errors = earlier ++ own ∧ ∀ e ∈ earlier, e.Passed (byteLength behind)
  written : Written rest x.token.range cs x.token.lexeme own

/-- A token is written somewhere in a source. -/
def Lexed.IsWritten (source : Source) (x : Lexed) : Prop := ∃ behind cs rest own, x.WrittenIn source behind cs rest own

/-! ### Words -/

theorem Kind.isFixed_of_mem_symbols {k : Kind} (h : k ∈ symbols) : k.isFixed = true := by
  have all : ∀ k ∈ symbols, k.isFixed = true := by decide
  exact all k h

theorem Kind.ofWord?_eq_some {word : String} {k : Kind} (h : ofWord? word = some k) :
    k = boolLit ∧ (word = "true" ∨ word = "false") ∨ k.isFixed = true ∧ k.text = word := by
  have keywords : ∀ k ∈ keywords, k.isFixed = true := by decide
  unfold ofWord? at h
  split at h
  · cases h
    exact .inl ⟨rfl, ‹_›⟩
  · split at h
    · rename_i hword
      cases h
      exact .inr ⟨rfl, hword.symm⟩
    · have found := List.find?_some h
      exact .inr ⟨keywords k (List.mem_of_find?_eq_some h), beq_iff_eq.mp found⟩

/-- The token of a word says what the word does. -/
theorem written_word {rest word : List Char} {first : Char} (hfirst : isWordStart first = true)
    (hword : ∀ c ∈ word, isWordPart c = true) (range : Range) :
    Written rest range (first :: word) (Lexer.wordToken (String.ofList (first :: word)) range).lexeme [] := by
  have spelled : (String.ofList (first :: word)).toList = first :: word := String.toList_ofList
  generalize String.ofList (first :: word) = text at spelled ⊢
  rw [← spelled]
  unfold Lexer.wordToken
  split
  · rename_i found
    rcases Kind.ofWord?_eq_some found with ⟨-, rfl | rfl⟩ | ⟨fixed, -⟩
    · exact .bool true
    · exact .bool false
    · cases fixed
  · rename_i k other found
    rcases Kind.ofWord?_eq_some found with ⟨bool, -⟩ | ⟨fixed, rfl⟩
    · exact absurd bool other
    · exact .fixed fixed
  · rename_i found
    have isWord : isWord text = true := by
      simp only [isWord, spelled, hfirst, Bool.true_and, List.all_eq_true]
      exact hword
    refine .name ?_
    rw [isName, isWord, found]
    rfl

/-! ### One look at the text -/

namespace Lexer
variable {lx : Lexer} {first : Char} {rest : List Char}

/-- A token is written in the text ahead. -/
def Writes (lx : Lexer) (t : Token) (own : List LexError) : Prop :=
  ∃ as cs rest, lx.cursor.ahead = as ++ (cs ++ rest) ∧ t.range = lx.rangeAt (byteLength as) (byteLength cs) ∧
    Written rest t.range cs t.lexeme own

/-- The tokens of a look are written in the text ahead, and what the look found wrong goes with the first of
    them. -/
def Spells (lx : Lexer) (s : Scan) : Prop :=
  (∀ t ∈ s.tokens.head?, lx.Writes t s.errors) ∧ ∀ t ∈ s.tokens.tail, lx.Writes t []

theorem skip_spells (n : Nat) (errors : List LexError) : lx.Spells (lx.skip n errors) :=
  ⟨fun _ ht => (Option.not_mem_none _ ht).elim, List.forall_mem_nil _⟩

/-- A token of the characters at the cursor. -/
theorem emit_spells {t : Token} {errors : List LexError} (cs more : List Char) (n : Nat)
    (ahead : lx.cursor.ahead = cs ++ more) (range : t.range = lx.rangeOf cs)
    (written : Written more t.range cs t.lexeme errors) : lx.Spells (lx.emit n t errors) := by
  refine ⟨fun u hu => ?_, List.forall_mem_nil _⟩
  obtain rfl := Option.some.inj hu
  exact ⟨[], cs, more, ahead, range, written⟩

theorem blockComment_spells (body : List Char) : lx.Spells (lx.blockComment body) := by
  unfold blockComment
  split
  · exact skip_spells _ _
  · exact skip_spells _ _

theorem word_spells (ahead : lx.cursor.ahead = first :: rest) (hfirst : isWordStart first = true) :
    lx.Spells (lx.word first rest) := by
  have range (text : String) (range : Range) : (wordToken text range).range = range := by
    unfold wordToken
    split <;> rfl
  have token : lx.word first rest = lx.emit ((first :: rest.takeWhile isWordPart).length - 1)
    (wordToken (String.ofList (first :: rest.takeWhile isWordPart)) (lx.rangeOf (first :: rest.takeWhile isWordPart)))
    [] := rfl
  rw [token]
  refine emit_spells _ _ _ (ahead_takeWhile ahead isWordPart) (range _ _) ?_
  rw [range]
  exact written_word hfirst (fun c hc => List.mem_takeWhile_imp hc) _

/-! ### Numbers -/

theorem integer_spells {cs more : List Char} {value : Nat} (ahead : lx.cursor.ahead = cs ++ more)
    (numeral : Numeral more cs (some value)) : lx.Spells (lx.integer cs value) := by
  unfold integer
  dsimp only
  split
  · rename_i small
    exact emit_spells cs more _ ahead rfl (.int numeral (Nat.lt_succ_of_le small))
  · rename_i large
    exact emit_spells cs more _ ahead rfl (.tooLarge numeral (Nat.lt_of_not_le large))

theorem radixInteger_spells {letter : Char} {radix : Radix} (ahead : lx.cursor.ahead = '0' :: letter :: rest)
    (hradix : Radix.ofLetter? letter = some radix) : lx.Spells (lx.radixInteger radix letter rest) := by
  have base := mem_bases_of_ofLetter? hradix
  have small : radix.base ≤ 16 := by cases radix <;> decide
  have classes (c : Char) : isDigitIn radix.base c = true ↔ digitRank c < radix.base := isDigitIn_iff small
  simp only [radixInteger]
  split
  · rename_i empty
    refine emit_spells _ _ _ (ahead_takeWhile₂ ahead isWordPart) rfl
      (.malformed (.malformed base ?_ (run_takeWhile (fun _ => Iff.rfl) rest)) radix)
    rw [List.takeWhile_append_dropWhile]
    intro c hc hdigit
    cases rest with
    | nil => cases hc
    | cons d rest =>
      obtain rfl := Option.some.inj hc
      rw [List.takeWhile_cons_of_pos ((classes d).mpr hdigit)] at empty
      cases empty
  · rename_i nonempty
    refine integer_spells (ahead_takeWhile₂ ahead (isDigitIn radix.base)) ?_
    rw [positional_eq_valueIn small fun c hc => List.mem_takeWhile_imp hc]
    exact .based base (fun nil => nonempty (by rw [nil]; rfl)) (run_takeWhile classes rest)

theorem exponentPart?_eq_some {cs : List Char} {exponent : Int} {n : Nat}
    (h : exponentPart? cs = some (exponent, n)) : ∃ mark more, cs = mark :: more ∧ mark ∈ ['e', 'E'] ∧ 0 < n := by
  unfold exponentPart? at h
  dsimp only at h
  split at h
  case h_3 => cases h
  all_goals
    refine ⟨_, _, rfl, by decide, ?_⟩
    -- with either sign and without one
    split at h
    all_goals
      split at h
      · cases h
      · cases h
        omega

/-- A fraction or exponent starts with its mark. -/
theorem fraction?_eq_some {cs : List Char} {f : Fraction} (h : fraction? cs = some f) :
    ∃ mark more, cs = mark :: more ∧ mark ∈ ['.', 'e', 'E'] ∧ 0 < f.length := by
  unfold fraction? at h
  cases empty : (fractionDigits cs).isEmpty with
  | true =>
    simp only [empty, if_true, List.drop_zero] at h
    split at h
    · rename_i exponent length found
      cases h
      obtain ⟨mark, more, rfl, hmark, pos⟩ := exponentPart?_eq_some found
      exact ⟨mark, more, rfl, List.mem_cons_of_mem _ hmark, Nat.add_pos_right 0 pos⟩
    · cases h
  | false =>
    obtain ⟨more, rfl⟩ : ∃ more, cs = '.' :: more := by
      unfold fractionDigits at empty
      split at empty
      · exact ⟨_, rfl⟩
      · cases empty
    refine ⟨'.', more, rfl, by decide, ?_⟩
    simp only [empty, Bool.false_eq_true, if_false] at h
    split at h
    · cases h
      exact Nat.add_pos_left (Nat.succ_pos _) _
    · cases h
      exact Nat.succ_pos _

theorem decimalNumber_spells (ahead : lx.cursor.ahead = first :: rest) (hfirst : first.isDigit = true)
    (plain : ∀ b ∈ bases, ¬['0', b.1] <+: first :: rest) : lx.Spells (lx.decimalNumber first rest) := by
  have whole : first :: rest = (first :: rest.takeWhile Char.isDigit) ++ rest.dropWhile Char.isDigit := by
    rw [List.cons_append, List.takeWhile_append_dropWhile]
  have run := run_digits hfirst rest
  simp only [decimalNumber, List.length_cons, Nat.add_sub_cancel, drop_length_takeWhile]
  split
  · rename_i f found
    have found : fraction? (rest.dropWhile Char.isDigit) = some f := by
      split at found
      · cases found
      · exact found
    obtain ⟨mark, more, hmore, hmark, pos⟩ := fraction?_eq_some found
    -- the mark is among the characters that are taken
    have taken : (first :: rest).take ((rest.takeWhile Char.isDigit).length + 1 + f.length) =
        (first :: rest.takeWhile Char.isDigit) ++ mark :: more.take (f.length - 1) := by
      have length : (rest.takeWhile Char.isDigit).length + 1 = (first :: rest.takeWhile Char.isDigit).length := rfl
      rw [whole, length, List.take_length_add_append, hmore, ← List.take_succ_cons, Nat.sub_add_cancel pos]
    refine emit_spells _ _ _ (ahead.trans (List.take_append_drop _ _).symm) rfl ?_
    rw [taken]
    exact .float (List.cons_ne_nil _ _) run.all hmark _
  · have value : positional 10 (first :: rest.takeWhile Char.isDigit) =
        valueIn 10 (first :: rest.takeWhile Char.isDigit) :=
      positional_eq_valueIn (by decide) fun c hc => (isDigitIn_iff (by decide)).mpr (run.all c hc)
    refine integer_spells (ahead.trans whole) ?_
    rw [value]
    exact .decimal (List.cons_ne_nil _ _) run (whole ▸ plain)

/-! ### Characters and strings -/

/-- What stands between the quotes of a character literal. -/
theorem charValue_spells (lx : Lexer) (body : List Char) (unquoted : first ≠ '\x27') (unbroken : first ≠ '\n')
    (more : List Char) (range : Range)
    (quoted : ((first :: body).drop (lx.charValue first body).2.1).head? = some '\x27') :
    Written more range ('\x27' :: ((first :: body).take (lx.charValue first body).2.1 ++ ['\x27']))
      ⟨.charLit, some (.char (lx.charValue first body).1)⟩ (lx.charValue first body).2.2 := by
  unfold charValue at quoted ⊢
  split
  · rename_i backslash
    subst backslash
    have nonempty : body ≠ [] := by
      rintro rfl
      cases quoted
    rw [List.take_succ_cons]
    refine .escape (Escape.decode_spells nonempty) ?_
    dsimp only
    split
    · exact List.forall_mem_nil _
    · exact List.forall_mem_singleton.mpr fun code => by cases code
  · rename_i backslash
    exact .char (by simp [unquoted, backslash, unbroken])

theorem charLiteral_spells (ahead : lx.cursor.ahead = '\x27' :: rest) : lx.Spells (lx.charLiteral rest) := by
  unfold charLiteral
  split
  case h_1 | h_2 | h_3 => exact skip_spells _ _
  case h_4 c body unbroken unquoted =>
    have unquoted : c ≠ '\x27' := by simpa using unquoted
    have unbroken : c ≠ '\n' := by simpa using unbroken
    have value := lx.charValue_spells body unquoted unbroken
    generalize lx.charValue c body = found at value ⊢
    obtain ⟨said, length, errors⟩ := found
    dsimp only at value ⊢
    split
    · rename_i quote
      have taken := take_add_one_of_head? quote
      have split : lx.cursor.ahead =
          ('\x27' :: ((c :: body).take length ++ ['\x27'])) ++ (c :: body).drop (length + 1) := by
        rw [ahead, List.cons_append, ← taken, List.take_append_drop]
      refine emit_spells _ _ _ split ?_ (value _ _ quote)
      rw [rangeOf, byteLength_quoted rfl]
    · exact skip_spells _ _

theorem stringLiteral_spells (ahead : lx.cursor.ahead = '"' :: rest) : lx.Spells (lx.stringLiteral rest) := by
  unfold stringLiteral
  split
  · rename_i n hn
    obtain ⟨text, more, rfl, rfl⟩ := unescapedLength?_eq_some hn
    rw [List.take_left]
    have split : lx.cursor.ahead = ('"' :: (text ++ ['"'])) ++ more := by
      rw [ahead, ← List.append_assoc]
      rfl
    refine emit_spells _ _ _ split ?_ (.string text)
    rw [rangeOf, byteLength_quoted rfl]
  · have split : lx.cursor.ahead = ('"' :: rest) ++ [] := by rw [ahead, List.append_nil]
    refine emit_spells _ _ _ split ?_ (.openString rest rfl _)
    exact congrArg (lx.rangeAt 0) (Nat.add_comm _ 1)

/-! ### Templates and symbols -/

theorem segment_writes (lx : Lexer) {text more : List Char} (ahead : lx.cursor.ahead = first :: (text ++ more))
    (hfirst : first.utf8Size = 1) {own : List LexError} (free : NumberFree own) :
    lx.Writes (lx.segmentToken text) own := by
  refine ⟨[first], text, more, ahead, ?_, .templateText text free⟩
  rw [Text.byteLength_cons, hfirst]
  rfl

theorem close_writes (lx : Lexer) {text mark more : List Char}
    (ahead : lx.cursor.ahead = first :: (text ++ (mark ++ more))) (hfirst : first.utf8Size = 1)
    (hmark : mark = ['\x60'] ∨ mark = [] ∧ more = []) {own : List LexError} (free : NumberFree own) :
    lx.Writes (.bare .templateClose (lx.rangeAt (byteLength text + 1) (byteLength mark))) own := by
  refine ⟨first :: text, mark, more, ahead, ?_, ?_⟩
  · rw [Text.byteLength_cons, hfirst, Nat.add_comm]
    rfl
  · rcases hmark with rfl | ⟨rfl, rfl⟩
    · exact .templateClose free
    · exact .cut rfl free

/-- Template text and what ends it are written behind the character at the cursor. -/
theorem templateText_writes (ahead : lx.cursor.ahead = first :: rest) (hfirst : first.utf8Size = 1) (resumed : Bool)
    {own : List LexError} (free : NumberFree own) :
    ∀ t ∈ (lx.templateText rest resumed).tokens, lx.Writes t own := by
  obtain ⟨text, stop, more, rfl, hmore, hscan⟩ := lx.templateText_eq rest resumed
  rw [hscan]
  have segment := lx.segment_writes ahead hfirst free
  have optional : ∀ t ∈ if text.isEmpty then [] else [lx.segmentToken text], lx.Writes t own := by
    split
    · exact List.forall_mem_nil _
    · exact List.forall_mem_singleton.mpr segment
  cases stop with
  | backtick =>
    exact List.forall_mem_append.mpr
      ⟨optional, List.forall_mem_singleton.mpr (lx.close_writes ahead hfirst (.inl rfl) free)⟩
  | hole =>
    dsimp only [segmentScan]
    split
    · exact List.forall_mem_singleton.mpr segment
    · exact optional
  | input =>
    exact List.forall_mem_append.mpr
      ⟨optional, List.forall_mem_singleton.mpr (lx.close_writes ahead hfirst (.inr ⟨rfl, hmore rfl⟩) free)⟩

theorem spells_of_writes {s : Scan} (free : NumberFree s.errors)
    (h : ∀ {own}, NumberFree own → ∀ t ∈ s.tokens, lx.Writes t own) : lx.Spells s :=
  ⟨fun t ht => h free t (List.mem_of_mem_head? ht), fun t ht => h (List.forall_mem_nil _) t (List.mem_of_mem_tail ht)⟩

theorem templateText_numberFree (resumed : Bool) : NumberFree (lx.templateText rest resumed).errors := by
  unfold templateText
  generalize segmentLength rest = found
  obtain ⟨n, stop⟩ := found
  cases stop with
  | backtick => exact List.forall_mem_nil _
  | hole => exact List.forall_mem_nil _
  | input => exact List.forall_mem_singleton.mpr fun code => by cases code

theorem open_writes (ahead : lx.cursor.ahead = '\x60' :: rest) {own : List LexError} (free : NumberFree own) :
    lx.Writes (.bare .templateOpen (lx.rangeAt 0 1)) own :=
  ⟨[], ['\x60'], rest, ahead, rfl, .templateOpen free⟩

theorem nestedTemplate_spells (ahead : lx.cursor.ahead = '\x60' :: rest) : lx.Spells (lx.nestedTemplate rest) := by
  have errors : (lx.nestedTemplate rest).errors = [⟨.nestedTemplate, lx.rangeAt 0 1⟩] := by
    unfold nestedTemplate
    split <;> rfl
  refine spells_of_writes (errors ▸ List.forall_mem_singleton.mpr fun code => by cases code) fun free => ?_
  unfold nestedTemplate
  split
  · rename_i n hn
    obtain ⟨text, more, rfl, rfl⟩ := unescapedLength?_eq_some hn
    rw [List.take_left]
    refine List.forall_mem_cons.mpr ⟨open_writes ahead free, List.forall_mem_cons.mpr
      ⟨lx.segment_writes ahead rfl free, List.forall_mem_singleton.mpr ?_⟩⟩
    exact lx.close_writes ahead rfl (.inl rfl) free
  · have ahead' : lx.cursor.ahead = '\x60' :: (rest ++ ([] ++ [])) := by
      rw [ahead, List.append_nil, List.append_nil]
    refine List.forall_mem_cons.mpr ⟨open_writes ahead free, List.forall_mem_cons.mpr
      ⟨lx.segment_writes ahead' rfl free, List.forall_mem_singleton.mpr ?_⟩⟩
    exact lx.close_writes ahead' rfl (.inr ⟨rfl, rfl⟩) free

theorem template_spells (ahead : lx.cursor.ahead = '\x60' :: rest) : lx.Spells (lx.template rest) := by
  unfold template
  split
  · exact nestedTemplate_spells ahead
  · refine spells_of_writes (templateText_numberFree false) fun free => ?_
    exact List.forall_mem_cons.mpr ⟨open_writes ahead free, templateText_writes ahead rfl false free⟩

theorem symbol_spells {k : Kind} (ahead : lx.cursor.ahead = first :: rest)
    (hk : Kind.ofSymbol? (first :: rest) = some k) : lx.Spells (lx.symbol k rest) := by
  have bytes : ∀ k ∈ Kind.symbols, byteLength k.text.toList = k.text.toList.length := by decide
  have mem := List.mem_of_find?_eq_some hk
  obtain ⟨more, hmore⟩ := Kind.prefix_of_ofSymbol? hk
  have ahead' : lx.cursor.ahead = k.text.toList ++ more := by rw [ahead, hmore]
  have token (n : Nat) (hole : Option Nat) :
      lx.Spells ⟨n, [.bare k (lx.rangeAt 0 k.text.toList.length)], [], hole⟩ := by
    refine emit_spells k.text.toList more n ahead' ?_ (.fixed (Kind.isFixed_of_mem_symbols mem))
    rw [rangeOf, bytes k mem]
    rfl
  simp only [symbol]
  split
  · exact token _ _
  · obtain rfl : first = '\x7d' := (List.cons.inj hmore).1.symm
    exact spells_of_writes (templateText_numberFree true) fun free => templateText_writes ahead rfl true free
  · exact token _ _
  · exact token _ _

theorem scan_spells (ahead : lx.cursor.ahead = first :: rest) : lx.Spells (lx.scan first rest) := by
  unfold scan
  split
  · exact skip_spells _ _
  split
  · exact word_spells ahead ‹_›
  split
  · rename_i digit
    have letters : ∀ b ∈ bases, (Radix.ofLetter? b.1).isSome = true := by decide
    split
    · split
      · exact radixInteger_spells ahead ‹_›
      · rename_i none
        refine decimalNumber_spells ahead digit fun b hb => ?_
        rintro ⟨more, hmore⟩
        cases hmore
        have letter := letters b hb
        rw [none] at letter
        cases letter
    · rename_i plain
      refine decimalNumber_spells ahead digit fun b hb => ?_
      rintro ⟨more, hmore⟩
      cases hmore
      exact plain _ _ rfl rfl
  split
  · exact skip_spells _ _
  · exact blockComment_spells _
  · exact charLiteral_spells ahead
  · exact stringLiteral_spells ahead
  · exact template_spells ahead
  · split
    · exact symbol_spells ahead ‹_›
    · exact skip_spells _ _

/-! ### What is passed over -/

/-- If a look gives no token, what it finds wrong is passed with it. -/
def Passes (lx : Lexer) (s : Scan) : Prop :=
  s.tokens = [] → ∀ e ∈ s.errors, e.Passed (lx.after s).cursor.pos

theorem passes_of_errors_nil {s : Scan} (h : s.tokens = [] → s.errors = []) : lx.Passes s := by
  intro nothing
  rw [h nothing]
  exact List.forall_mem_nil _

theorem passes_of_length {s : Scan} (h : s.tokens.length = 1) : lx.Passes s := by
  intro nothing
  rw [nothing] at h
  cases h

/-- An error in the characters that a look passes over. -/
theorem passed_of_le {cause : LexCause} {offset length : Nat} {s : Scan} (code : cause.code ≠ .malformedNumber)
    (le : offset + length ≤ byteLength (lx.taken s)) :
    LexError.Passed (lx.after s).cursor.pos ⟨cause, lx.rangeAt offset length⟩ := by
  refine ⟨code, ?_⟩
  have stop : (lx.rangeAt offset length).stop.pos ≤ lx.cursor.pos + offset + length := by
    show min (max _ _) lx.source.length ≤ _
    omega
  have after : (lx.after s).cursor.pos = lx.cursor.pos + byteLength (lx.taken s) := rfl
  rw [after]
  exact stop.trans (by omega)

theorem blockComment_passes {body : List Char} (ahead : lx.cursor.ahead = '/' :: '*' :: body) :
    lx.Passes (lx.blockComment body) := by
  unfold blockComment
  split
  · exact passes_of_errors_nil fun _ => rfl
  · refine fun _ => List.forall_mem_singleton.mpr (passed_of_le (by decide) ?_)
    rw [taken, ahead]
    simp only [skip, Nat.add_comm 1, List.take_succ_cons, Text.byteLength_cons]
    have size : Char.utf8Size '/' + Char.utf8Size '*' = 2 := rfl
    omega

/-- An escape that is not known is passed with the backslash before it. -/
theorem charValue_passes {body : List Char} (ahead : lx.cursor.ahead = '\x27' :: first :: body)
    (errors : List LexError) : ∀ e ∈ (lx.charValue first body).2.2,
      e.Passed (lx.after (lx.skip (lx.charValue first body).2.1 errors)).cursor.pos := by
  unfold charValue
  split
  · dsimp only
    split
    · exact List.forall_mem_nil _
    · refine List.forall_mem_singleton.mpr (passed_of_le (fun code => by cases code) ?_)
      rw [taken, ahead]
      simp only [skip, List.take_succ_cons, Text.byteLength_cons]
      have size : Char.utf8Size '\x27' = 1 := rfl
      omega
  · exact List.forall_mem_nil _

theorem charLiteral_passes (ahead : lx.cursor.ahead = '\x27' :: rest) : lx.Passes (lx.charLiteral rest) := by
  have size : Char.utf8Size '\x27' = 1 := rfl
  have fault {cause : LexCause} {length n : Nat} {errors : List LexError} (code : cause.code ≠ .malformedNumber)
      (le : length ≤ byteLength (rest.take n) + 1) :
      LexError.Passed (lx.after (lx.skip n errors)).cursor.pos ⟨cause, lx.rangeAt 0 length⟩ := by
    refine passed_of_le code ?_
    rw [taken, ahead]
    simp only [skip, List.take_succ_cons, Text.byteLength_cons, size]
    omega
  unfold charLiteral
  split
  · exact fun _ => List.forall_mem_singleton.mpr (fault (by decide) (Nat.le_add_left _ _))
  · exact fun _ => List.forall_mem_singleton.mpr (fault (by decide) (Nat.le_add_left _ _))
  · refine fun _ => List.forall_mem_singleton.mpr (fault (by decide) ?_)
    rw [List.take_succ_cons, Text.byteLength_cons, size]
    omega
  · rename_i c body _ _
    have value := lx.charValue_passes ahead
    generalize lx.charValue c body = found at value ⊢
    obtain ⟨said, length, errors⟩ := found
    dsimp only at value ⊢
    split
    · exact passes_of_length rfl
    · exact fun _ => List.forall_mem_append.mpr
        ⟨value _, List.forall_mem_singleton.mpr (fault (by decide) (Nat.le_refl _))⟩

theorem templateText_passes (resumed : Bool) : lx.Passes (lx.templateText rest resumed) := by
  refine passes_of_errors_nil ?_
  unfold templateText
  generalize segmentLength rest = found
  obtain ⟨n, stop⟩ := found
  cases stop with
  | backtick => exact fun _ => rfl
  | hole => exact fun _ => rfl
  | input => exact fun nothing => absurd nothing (List.append_ne_nil_of_right_ne_nil _ (List.cons_ne_nil _ _))

theorem template_passes : lx.Passes (lx.template rest) := by
  refine passes_of_errors_nil fun nothing => ?_
  unfold template nestedTemplate at nothing
  repeat' split at nothing
  all_goals cases nothing

theorem symbol_passes (k : Kind) : lx.Passes (lx.symbol k rest) := by
  simp only [symbol]
  split
  case h_2 => exact templateText_passes true
  all_goals exact passes_of_errors_nil fun _ => rfl

theorem scan_passes (ahead : lx.cursor.ahead = first :: rest) : lx.Passes (lx.scan first rest) := by
  unfold scan
  split
  · exact passes_of_errors_nil fun _ => rfl
  split
  · exact passes_of_errors_nil fun _ => rfl
  split
  · split
    · split
      · exact passes_of_length (lx.radixInteger_tokens_length _ _ _)
      · exact passes_of_length (lx.decimalNumber_tokens_length _ _)
    · exact passes_of_length (lx.decimalNumber_tokens_length _ _)
  split
  · exact passes_of_errors_nil fun _ => rfl
  · exact blockComment_passes ahead
  · exact charLiteral_passes ahead
  · exact passes_of_length (lx.stringLiteral_tokens_length _)
  · exact template_passes
  · split
    · exact symbol_passes _
    · refine fun _ => List.forall_mem_singleton.mpr (passed_of_le (fun code => by cases code) ?_)
      rw [taken, ahead, Nat.zero_add]
      exact Nat.le_refl _

/-! ### Calls -/

theorem Writes.isWritten {t : Token} {earlier own : List LexError} (h : lx.Writes t own) (on : lx.spot.On lx.source)
    (passed : ∀ e ∈ earlier, e.Passed lx.cursor.pos) : Lexed.IsWritten lx.source ⟨t, earlier ++ own⟩ := by
  obtain ⟨as, cs, rest, ahead, range, written⟩ := h
  obtain ⟨behind, hchars, hpos⟩ := on
  have start : byteLength (behind ++ as) = lx.cursor.pos + byteLength as := by
    rw [Text.byteLength_append, hpos]
    rfl
  refine ⟨behind ++ as, cs, rest, own, ?_, ?_, ⟨earlier, rfl, fun e he => ⟨(passed e he).code, ?_⟩⟩, written⟩
  · rw [hchars, List.append_assoc, ← ahead]
    rfl
  · rw [start]
    exact range
  · rw [start]
    exact (passed e he).stop.trans (Nat.le_add_right _ _)

/-- The lexer stands in its text, and the tokens that wait to be handed out are written there. -/
structure Stocked (lx : Lexer) : Prop where
  on : lx.spot.On lx.source
  pending : ∀ t ∈ lx.pending, Lexed.IsWritten lx.source ⟨t, []⟩

theorem stocked_start (source : Source) : (Lexer.start source).Stocked :=
  ⟨⟨[], rfl, rfl⟩, List.forall_mem_nil _⟩

theorem Stocked.after (h : lx.Stocked) (ahead : lx.cursor.ahead = first :: rest) :
    (lx.after (lx.scan first rest)).Stocked where
  on := by
    have on : Spot.On ⟨.ofHole lx.hole, lx.cursor.pos, _⟩ lx.source := lx.spot_eq (lx.scan first rest) ▸ h.on
    exact on.step
  pending t ht := ((scan_spells ahead).2 t ht).isWritten h.on (List.forall_mem_nil _)

/-- At the end of the text a token without text is given. -/
theorem atEnd_isWritten (h : lx.Stocked) {errors : List LexError} (passed : ∀ e ∈ errors, e.Passed lx.cursor.pos)
    (ahead : lx.cursor.ahead = []) :
    Lexed.IsWritten lx.source { lx.atEnd.1 with errors := errors ++ lx.atEnd.1.errors } := by
  have last : lx.endRange = lx.rangeAt 0 0 := by
    obtain ⟨behind, hchars, hpos⟩ := h.on
    have length : lx.source.length = lx.cursor.pos := by
      rw [lx.source.length_eq, hchars, spot, ahead, List.append_nil, hpos]
      rfl
    rw [endRange, length]
    rfl
  unfold atEnd
  split
  · have free : NumberFree [⟨.unterminated .hole, lx.endRange⟩] :=
      List.forall_mem_singleton.mpr fun code => by cases code
    exact Writes.isWritten ⟨[], [], [], ahead, last, .cut rfl free⟩ h.on passed
  · exact Writes.isWritten ⟨[], [], [], ahead, last, .eof rfl⟩ h.on passed

theorem read_isWritten (h : lx.Stocked) {errors : List LexError} (passed : ∀ e ∈ errors, e.Passed lx.cursor.pos) :
    (lx.read errors).1.IsWritten lx.source ∧ (lx.read errors).2.Stocked := by
  fun_induction read lx errors with
  | case1 lx errors ahead lexed later ended =>
    have written := atEnd_isWritten h passed ahead
    rw [ended] at written
    refine ⟨written, ?_⟩
    simp only [atEnd] at ended
    split at ended
    · cases ended
      exact ⟨h.on, h.pending⟩
    · cases ended
      exact h
  | case2 lx errors first rest ahead s tokens ih =>
    refine ih (h.after ahead) (List.forall_mem_append.mpr ⟨fun e he => ⟨(passed e he).code, ?_⟩, ?_⟩)
    · exact (passed e he).stop.trans (Nat.le_add_right _ _)
    · exact scan_passes ahead tokens
  | case3 lx errors first rest ahead s token more tokens =>
    have written := (scan_spells ahead).1 token (by rw [tokens]; rfl)
    exact ⟨written.isWritten h.on passed, h.after ahead⟩

theorem next_isWritten (h : lx.Stocked) : lx.next.1.IsWritten lx.source ∧ lx.next.2.Stocked := by
  cases pending : lx.pending with
  | nil =>
    rw [next_of_pending_nil pending]
    exact read_isWritten h (List.forall_mem_nil _)
  | cons token waiting =>
    have hnext : lx.next = (⟨token, []⟩, { lx with pending := waiting }) := by
      unfold next
      rw [pending]
    have written := h.pending
    rw [pending, List.forall_mem_cons] at written
    rw [hnext]
    exact ⟨written.1, h.on, written.2⟩

/-- Every call gives a token that is written in the source. -/
theorem call_isWritten (source : Source) (n : Nat) : ((Lexer.start source).call n).IsWritten source := by
  have stocked : ((Lexer.start source).afterCalls n).Stocked := by
    induction n with
    | zero => exact stocked_start source
    | succ n ih =>
      rw [afterCalls_succ]
      exact (next_isWritten ih).2
  have written := (next_isWritten stocked).1
  rw [afterCalls_source] at written
  exact written

end Lexer

end BraceLang
