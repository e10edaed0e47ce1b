import BraceLang.Token.Lexer
import Mathlib.Data.List.Basic
import Mathlib.Data.List.Find

/-! Lexemes: what tokens say wherever they stand, and how that is spelled. One look at the spelling of a
    word, a number or a symbol takes it whole if nothing but a blank stands behind it (`Lexer.scan_word`,
    `Lexer.scan_digits`, `Lexer.scan_symbol`). -/

namespace BraceLang

/-- What a token says, wherever it stands. -/
structure Lexeme where
  kind : Kind
  payload : Option Payload
deriving DecidableEq

def Token.lexeme (t : Token) : Lexeme := ⟨t.kind, t.payload⟩

/-- Whether a text is a name, a keyword or a literal spelled like one. -/
def isWord (text : String) : Bool :=
  match text.toList with
  | [] => false
  | first :: rest => isWordStart first && rest.all isWordPart

/-- Whether a text is a word that is neither a keyword nor a literal. -/
def isName (text : String) : Bool := isWord text && (Kind.ofWord? text).isNone

namespace Lexeme

def bare (kind : Kind) : Lexeme := ⟨kind, none⟩

def name (text : String) : Lexeme := ⟨.name, some (.text text)⟩

def int (value : Nat) : Lexeme := ⟨.intLit, some (.int value)⟩

def bool (value : Bool) : Lexeme := ⟨.boolLit, some (.bool value)⟩

/-- How a lexeme is spelled; integers are written in decimal. -/
def text (l : Lexeme) : String :=
  match l.payload with
  | some (.text s) => s
  | some (.int n) => n.repr
  | some (.bool b) => if b then "true" else "false"
  | _ => l.kind.text

def chars (l : Lexeme) : List Char := l.text.toList

/-- The lexemes whose spelling says all about them. -/
inductive Proper : Lexeme → Prop where
  | name {text : String} (h : isName text = true) : Proper (.name text)
  | int {value : Nat} (h : value ≤ maxInteger) : Proper (.int value)
  | bool (value : Bool) : Proper (.bool value)
  | word {kind : Kind} (h : kind ∈ Kind.nullLit :: Kind.keywords) : Proper (.bare kind)
  | symbol {kind : Kind} (h : kind ∈ Kind.symbols) : Proper (.bare kind)

end Lexeme

theorem Token.text_of_lexeme {t : Token} {text : String} (h : t.lexeme = .name text) :
    t.text = text := by
  have payload : t.payload = some (.text text) := congrArg Lexeme.payload h
  rw [Token.text, payload]

theorem Token.int_of_lexeme {t : Token} {value : Nat} (h : t.lexeme = .int value) :
    t.int = value := by
  have payload : t.payload = some (.int value) := congrArg Lexeme.payload h
  rw [Token.int, payload]

/-- The text of lexemes with a blank between each two. -/
def spaced (ls : List Lexeme) : String := " ".intercalate (ls.map Lexeme.text)

/-! ### Characters at the end of a lexeme -/

/-- Nothing but a blank can stand at the start of the text. -/
def Parted (cs : List Char) : Prop := ∀ c ∈ cs.head?, c = ' '

theorem takeWhile_parted {p : Char → Bool} {cs more : List Char} (hcs : ∀ c ∈ cs, p c = true)
    (blank : p ' ' = false) (parted : Parted more) : (cs ++ more).takeWhile p = cs := by
  rw [List.takeWhile_append_of_pos hcs]
  cases more with
  | nil => rw [List.takeWhile_nil, List.append_nil]
  | cons c more =>
    obtain rfl := parted c rfl
    rw [List.takeWhile_cons_of_neg (by rw [blank]; decide), List.append_nil]

theorem isPrefixOf_parted {cs ds more : List Char} (hcs : ' ' ∉ cs) (parted : Parted more) :
    cs.isPrefixOf (ds ++ more) = cs.isPrefixOf ds := by
  induction cs generalizing ds with
  | nil => simp
  | cons c cs ih =>
    obtain ⟨hc, hcs⟩ := List.ne_and_not_mem_of_not_mem_cons hcs
    cases ds with
    | cons d ds => rw [List.cons_append, List.isPrefixOf_cons_cons, List.isPrefixOf_cons_cons, ih hcs]
    | nil =>
      cases more with
      | nil => rfl
      | cons d more =>
        obtain rfl := parted d rfl
        simp [List.isPrefixOf_cons_cons, Ne.symm hc]

/-! ### Characters of a kind -/

theorem isBlank_eq_false {p : Char → Bool} {c : Char} (h : p c = true)
    (blanks : [' ', '\t', '\r', '\n', '\x0c'].any p = false) : isBlank c = false := by
  rw [← Bool.not_eq_true]
  intro blank
  have hc : c ∈ [' ', '\t', '\r', '\n', '\x0c'] := by
    simpa only [isBlank, Bool.or_eq_true, beq_iff_eq, or_assoc, List.mem_cons, List.not_mem_nil,
      or_false] using blank
  exact List.any_eq_false.mp blanks c hc h

theorem isWordStart_of_isDigit {c : Char} (h : c.isDigit = true) : isWordStart c = false := by
  have digits : ∀ n < 58, 48 ≤ n → isWordStart (Char.ofNat n) = false := by decide
  obtain ⟨low, high⟩ := Char.isDigit_iff_toNat.mp h
  rw [← Char.ofNat_toNat c]
  exact digits c.toNat (Nat.lt_succ_of_le high) low

theorem digitValue?_of_isDigit {c : Char} (h : c.isDigit = true) :
    digitValue? c = some (c.toNat - '0'.toNat) := by
  simp only [Char.isDigit, Bool.and_eq_true, decide_eq_true_eq] at h
  exact if_pos h

theorem ofLetter?_eq_none {c : Char} (h : c.isDigit = true ∨ c = ' ') : Radix.ofLetter? c = none := by
  unfold Radix.ofLetter?
  split
  all_goals first | rfl | exact absurd h (by decide)

theorem positional_toDigits (n : Nat) : positional 10 (Nat.toDigits 10 n) = n := by
  have step : ∀ (m : Nat), ∀ c ∈ Nat.toDigits 10 n,
      m * 10 + (digitValue? c).getD 0 = 10 * m + (c.toNat - '0'.toNat) := by
    intro m c hc
    have digit := Nat.isDigit_of_mem_toDigits (by decide) (by decide) hc
    rw [digitValue?_of_isDigit digit, Option.getD_some, Nat.mul_comm]
  calc positional 10 (Nat.toDigits 10 n)
      = Nat.ofDigitChars 10 (Nat.toDigits 10 n) 0 := List.foldl_ext _ _ _ step
    _ = n := Nat.ofDigitChars_ten_toDigits

/-! ### Symbols -/

/-- Whether a character starts neither a word nor a literal nor a blank. -/
def startsSymbol (c : Char) : Bool :=
  !isBlank c && !isWordStart c && !c.isDigit && c ∉ ['\x27', '"', '\x60']

namespace Kind

variable {k : Kind}

theorem startsSymbol_of_mem_symbols (hk : k ∈ symbols) {first : Char}
    (h : first ∈ k.text.toList.head?) : startsSymbol first = true := by
  have all : ∀ k ∈ symbols, k.text.toList.head?.all startsSymbol = true := by decide
  have hfirst := all k hk
  rwa [Option.mem_def.mp h] at hfirst

/-- A symbol that starts with a slash starts no comment, whatever stands after it. -/
theorem no_comment_of_mem_symbols (hk : k ∈ symbols) {rest more : List Char}
    (h : k.text.toList = '/' :: rest) (parted : Parted more) :
    ∀ c ∈ (rest ++ more).head?, c ≠ '/' ∧ c ≠ '*' := by
  have all : ∀ k ∈ symbols, k.text.toList.head? = some '/' → k.text.toList.tail ∈ [[], ['=']] := by
    decide
  have hrest := all k hk (by rw [h]; rfl)
  rw [h, List.tail_cons, List.mem_pair] at hrest
  intro c hc
  rcases hrest with rfl | rfl
  · obtain rfl := parted c hc
    decide
  · cases hc
    decide

theorem ofSymbol?_parted (hk : k ∈ symbols) {more : List Char} (parted : Parted more) :
    ofSymbol? (k.text.toList ++ more) = some k := by
  have noBlank : ∀ k ∈ symbols, ' ' ∉ k.text.toList := by decide
  have found : ∀ k ∈ symbols, ofSymbol? k.text.toList = some k := by decide
  calc ofSymbol? (k.text.toList ++ more)
      = ofSymbol? k.text.toList :=
        List.find?_congr fun j hj => isPrefixOf_parted (noBlank j hj) parted
    _ = some k := found k hk

end Kind

/-! ### One look at a lexeme -/

namespace Lexer

variable (lx : Lexer) {more : List Char}

/-- The token of a word that is spelled `text`. -/
def wordToken (text : String) (range : Range) : Token :=
  match Kind.ofWord? text with
  | some .boolLit => ⟨.boolLit, range, some (.bool (text == "true"))⟩
  | some kind => .bare kind range
  | none => ⟨.name, range, some (.text text)⟩

theorem scan_word {text : String} (h : isWord text = true) (parted : Parted more) :
    ∃ first rest range, text.toList = first :: rest ∧ isBlank first = false ∧
      lx.scan first (rest ++ more) = lx.emit rest.length (wordToken text range) [] := by
  unfold isWord at h
  split at h
  · cases h
  · rename_i first rest htext
    rw [Bool.and_eq_true, List.all_eq_true] at h
    obtain ⟨hfirst, hrest⟩ := h
    have blank := isBlank_eq_false hfirst (by decide)
    have taken := takeWhile_parted hrest (by decide) parted
    have spelled : String.ofList (first :: rest) = text := by rw [← htext, String.ofList_toList]
    refine ⟨first, rest, lx.rangeOf (first :: rest), htext, blank, ?_⟩
    unfold scan
    rw [if_neg (by rw [blank]; decide), if_pos hfirst]
    simp only [word, taken, spelled, List.length_cons, Nat.add_sub_cancel]
    rfl

theorem scan_digits {first : Char} {rest : List Char} (digits : ∀ c ∈ first :: rest, c.isDigit = true)
    (max : positional 10 (first :: rest) ≤ maxInteger) (parted : Parted more) :
    lx.scan first (rest ++ more) = lx.emit rest.length
      ⟨.intLit, lx.rangeOf (first :: rest), some (.int (positional 10 (first :: rest)))⟩ [] := by
  obtain ⟨hfirst, hrest⟩ := List.forall_mem_cons.mp digits
  have blank := isBlank_eq_false hfirst (by decide)
  have taken := takeWhile_parted hrest (by decide) parted
  have whole : fraction? more = none := by
    cases more with
    | nil => rfl
    | cons c more =>
      obtain rfl := parted c rfl
      rfl
  have decimal : lx.decimalNumber first (rest ++ more) = lx.emit rest.length
      ⟨.intLit, lx.rangeOf (first :: rest), some (.int (positional 10 (first :: rest)))⟩ [] := by
    simp only [decimalNumber, taken, List.length_cons, Nat.add_sub_cancel, List.drop_left, whole,
      ite_self, integer, if_pos max]
  unfold scan
  rw [if_neg (by rw [blank]; decide), if_neg (by rw [isWordStart_of_isDigit hfirst]; decide),
    if_pos hfirst]
  split
  · rename_i letter ds hrest'
    have noRadix : Radix.ofLetter? letter = none := by
      apply ofLetter?_eq_none
      cases rest with
      | cons c rest =>
        cases hrest'
        exact .inl (hrest _ List.mem_cons_self)
      | nil => exact .inr (parted letter (by rw [← List.nil_append more, hrest']; rfl))
    rw [noRadix]
    exact decimal
  · exact decimal

theorem symbol_of_no_hole {k : Kind} (rest : List Char) (hole : lx.hole = none) :
    lx.symbol k rest =
      lx.emit (k.text.toList.length - 1) (.bare k (lx.rangeAt 0 k.text.toList.length)) [] := by
  unfold symbol
  rw [hole]
  cases k <;> rfl

theorem scan_symbol {k : Kind} {first : Char} {rest : List Char} (hk : k ∈ Kind.symbols)
    (htext : k.text.toList = first :: rest) (parted : Parted more) :
    lx.scan first (rest ++ more) = lx.symbol k (rest ++ more) := by
  have plain : startsSymbol first = true := Kind.startsSymbol_of_mem_symbols hk (htext ▸ rfl)
  simp only [startsSymbol, Bool.and_eq_true, Bool.not_eq_true', decide_eq_true_eq, List.mem_cons,
    List.not_mem_nil, or_false, not_or] at plain
  obtain ⟨⟨⟨blank, word⟩, digit⟩, quote, doubleQuote, backtick⟩ := plain
  have symbol : Kind.ofSymbol? (first :: (rest ++ more)) = some k := by
    rw [← List.cons_append, ← htext]
    exact Kind.ofSymbol?_parted hk parted
  have noComment : first = '/' → ∀ c ∈ (rest ++ more).head?, c ≠ '/' ∧ c ≠ '*' := by
    rintro rfl
    exact Kind.no_comment_of_mem_symbols hk htext parted
  unfold scan
  rw [if_neg (by rw [blank]; decide), if_neg (by rw [word]; decide), if_neg (by rw [digit]; decide)]
  split
  · rename_i heq
    exact absurd rfl (noComment rfl '/' (by rw [heq]; rfl)).1
  · rename_i heq
    exact absurd rfl (noComment rfl '*' (by rw [heq]; rfl)).2
  · exact absurd rfl quote
  · exact absurd rfl doubleQuote
  · exact absurd rfl backtick
  · rw [symbol]

end Lexer

/-- The tokens say just these lexemes, and nothing is wrong with them or with the end. -/
structure TokenStream.Says (stream : TokenStream) (ls : List Lexeme) : Prop where
  lexemes : stream.tokens.map (·.token.lexeme) = ls
  faultless : ∀ lexed ∈ stream.eof :: stream.tokens, lexed.errors = []

theorem intercalate_cons {α : Type} (mark : α) (xs : List α) (xss : List (List α)) :
    [mark].intercalate (xs :: xss) = xs ++ xss.flatMap (mark :: ·) := by
  induction xss generalizing xs with
  | nil => rw [List.intercalate_singleton, List.flatMap_nil, List.append_nil]
  | cons ys yss ih =>
    rw [List.intercalate_cons_cons, ih, List.flatMap_cons, List.append_assoc]
    rfl

end BraceLang
