import BraceLang.Proofs.Node.Words
import BraceLang.Token.Lexer

/-! The words among the tokens of a text, and that every token says what its kind promises: a number has
    a value, a name has a text, and a symbol has neither. -/

namespace BraceLang

/-- Whether tokens of a kind can be words. -/
def Kind.speaks (k : Kind) : Bool :=
  k.roles.primitive || k ∈ [name, intLit, floatLit, charLit, stringLit, boolLit, nullLit, templateText]

/-- Whether a kind is that of tokens that are no words, the end apart. -/
def Kind.isMark (k : Kind) : Bool := !k.speaks && k != eof

/-- The word that a token is, if it is one. Template text is one unless it is empty. -/
def Token.word? (t : Token) : Option Word :=
  match t.kind, t.payload with
  | .name, some (.text s) => some (.name s)
  | .intLit, some (.int n) => some (.int n)
  | .floatLit, some (.float x) => some (.float x)
  | .charLit, some (.char c) => some (.char c)
  | .stringLit, some (.text s) => some (.str s)
  | .templateText, some (.text s) => if s.isEmpty then none else some (.str s)
  | .boolLit, some (.bool b) => some (.bool b)
  | .nullLit, _ => some .null
  | k, _ => if k.roles.primitive then some (.prim k) else none

theorem Token.word?_of_not_speaks {t : Token} (h : t.kind.speaks = false) : t.word? = none := by
  obtain ⟨hprim, hk⟩ := Bool.or_eq_false_iff.mp h
  unfold word?
  split
  all_goals simp_all

/-- Whether tokens of a kind carry such a payload. -/
def Kind.carries : Kind → Option Payload → Bool
  | .name, some (.text _) => true
  | .intLit, some (.int _) => true
  | .floatLit, some (.float _) => true
  | .charLit, some (.char _) => true
  | .stringLit, some (.text _) => true
  | .templateText, some (.text _) => true
  | .boolLit, some (.bool _) => true
  | .name, _ | .intLit, _ | .floatLit, _ | .charLit, _ | .stringLit, _ | .templateText, _
  | .boolLit, _ => false
  | _, payload => payload.isNone

namespace Token

/-- A token carries what its kind promises. -/
def Spoken (t : Token) : Prop := t.kind.carries t.payload = true

variable {t : Token}

theorem word?_name (hk : t.kind = .name) (h : t.Spoken) : t.word? = some (.name t.text) := by
  obtain ⟨kind, range, payload⟩ := t
  obtain rfl := hk
  cases payload with
  | none => cases h
  | some payload => cases payload <;> first | rfl | cases h

theorem word?_int (hk : t.kind = .intLit) (h : t.Spoken) : t.word? = some (.int t.int) := by
  obtain ⟨kind, range, payload⟩ := t
  obtain rfl := hk
  cases payload with
  | none => cases h
  | some payload => cases payload <;> first | rfl | cases h

theorem word?_templateText (hk : t.kind = .templateText) (h : t.Spoken) :
    t.word? = if t.text.isEmpty then none else some (.str t.text) := by
  obtain ⟨kind, range, payload⟩ := t
  obtain rfl := hk
  cases payload with
  | none => cases h
  | some payload => cases payload <;> rfl

theorem word?_prim (hk : t.kind.roles.primitive = true) : t.word? = some (.prim t.kind) := by
  unfold word?
  split
  case h_9 => exact if_pos hk
  all_goals
    rw [‹t.kind = _›] at hk
    cases hk

end Token

/-! ### What one look at the text gives -/

theorem Kind.carries_of_ofWord? {word : String} {k : Kind} (h : ofWord? word = some k)
    (hk : k ≠ .boolLit) : k.carries none = true := by
  have keywords : ∀ k ∈ keywords, k.carries none = true := by decide
  unfold ofWord? at h
  split at h
  · cases h
    exact absurd rfl hk
  · split at h
    · cases h
      rfl
    · exact keywords k (List.mem_of_find?_eq_some h)

theorem Kind.carries_of_ofSymbol? {cs : List Char} {k : Kind} (h : ofSymbol? cs = some k) :
    k.carries none = true := by
  have symbols : ∀ k ∈ symbols, k.carries none = true := by decide
  exact symbols k (List.mem_of_find?_eq_some h)

namespace Lexer

variable (lx : Lexer)

theorem word_spoken (first : Char) (rest : List Char) :
    ∀ t ∈ (lx.word first rest).tokens, t.Spoken := by
  simp only [word, emit, List.mem_singleton, forall_eq]
  split
  · rfl
  · rename_i k hk hword
    exact Kind.carries_of_ofWord? hword hk
  · rfl

theorem integer_spoken (chars : List Char) (value : Nat) :
    ∀ t ∈ (lx.integer chars value).tokens, t.Spoken := by
  unfold integer
  split <;> exact List.forall_mem_singleton.mpr rfl

theorem radixInteger_spoken (radix : Radix) (letter : Char) (rest : List Char) :
    ∀ t ∈ (lx.radixInteger radix letter rest).tokens, t.Spoken := by
  simp only [radixInteger]
  split
  · exact List.forall_mem_singleton.mpr rfl
  · exact lx.integer_spoken _ _

theorem decimalNumber_spoken (first : Char) (rest : List Char) :
    ∀ t ∈ (lx.decimalNumber first rest).tokens, t.Spoken := by
  simp only [decimalNumber]
  split
  · exact List.forall_mem_singleton.mpr rfl
  · exact lx.integer_spoken _ _

theorem charLiteral_spoken (rest : List Char) : ∀ t ∈ (lx.charLiteral rest).tokens, t.Spoken := by
  unfold charLiteral
  repeat' split
  all_goals first | exact List.forall_mem_nil _ | exact List.forall_mem_singleton.mpr rfl

theorem stringLiteral_spoken (rest : List Char) : ∀ t ∈ (lx.stringLiteral rest).tokens, t.Spoken := by
  unfold stringLiteral
  split <;> exact List.forall_mem_singleton.mpr rfl

@[simp]
theorem spoken_segmentToken (text : List Char) : (lx.segmentToken text).Spoken := rfl

@[simp]
theorem spoken_templateOpen (range : Range) : (Token.bare .templateOpen range).Spoken := rfl

@[simp]
theorem spoken_templateClose (range : Range) : (Token.bare .templateClose range).Spoken := rfl

theorem templateText_spoken (rest : List Char) (resumed : Bool) :
    ∀ t ∈ (lx.templateText rest resumed).tokens, t.Spoken := by
  simp only [templateText]
  repeat' split
  all_goals simp

theorem template_spoken (rest : List Char) : ∀ t ∈ (lx.template rest).tokens, t.Spoken := by
  unfold template
  split
  · unfold nestedTemplate
    split <;> simp
  · simp only [List.forall_mem_cons]
    exact ⟨rfl, lx.templateText_spoken rest false⟩

theorem symbol_spoken {k : Kind} (rest : List Char) (hk : k.carries none = true) :
    ∀ t ∈ (lx.symbol k rest).tokens, t.Spoken := by
  simp only [symbol]
  split
  · exact List.forall_mem_singleton.mpr hk
  · exact lx.templateText_spoken rest true
  · exact List.forall_mem_singleton.mpr hk
  · exact List.forall_mem_singleton.mpr hk

theorem scan_spoken (first : Char) (rest : List Char) :
    ∀ t ∈ (lx.scan first rest).tokens, t.Spoken := by
  unfold scan
  repeat' split
  · simp [skip]
  · exact lx.word_spoken _ _
  · exact lx.radixInteger_spoken _ _ _
  · exact lx.decimalNumber_spoken _ _
  · exact lx.decimalNumber_spoken _ _
  · simp [skip]
  · simp [blockComment_tokens]
  · exact lx.charLiteral_spoken _
  · exact lx.stringLiteral_spoken _
  · exact lx.template_spoken _
  · rename_i hk
    exact lx.symbol_spoken _ (Kind.carries_of_ofSymbol? hk)
  · simp [skip]

/-! ### The stream -/

theorem atEnd_spoken : lx.atEnd.1.token.Spoken := by
  unfold atEnd
  split <;> rfl

theorem atEnd_pending : lx.atEnd.2.pending = lx.pending := by
  unfold atEnd
  split <;> rfl

theorem read_spoken (errors : List LexError) (h : ∀ t ∈ lx.pending, t.Spoken) :
    (lx.read errors).1.token.Spoken ∧ ∀ t ∈ (lx.read errors).2.pending, t.Spoken := by
  fun_induction read lx errors with
  | case1 lx errors ahead lexed rest hend =>
    have htoken := lx.atEnd_spoken
    have hpending := lx.atEnd_pending
    rw [hend] at htoken hpending
    refine ⟨htoken, ?_⟩
    rw [hpending]
    exact h
  | case2 lx errors c rest ahead s tokens ih =>
    refine ih fun t ht => lx.scan_spoken c rest t ?_
    exact List.mem_of_mem_tail ht
  | case3 lx errors c rest ahead s token more tokens =>
    have hall := lx.scan_spoken c rest
    rw [tokens] at hall
    refine ⟨hall token List.mem_cons_self, fun t ht => hall t ?_⟩
    have hmore : (lx.after s).pending = more := by rw [after, tokens, List.tail_cons]
    rw [hmore] at ht
    exact List.mem_cons_of_mem _ ht

theorem next_spoken (h : ∀ t ∈ lx.pending, t.Spoken) :
    lx.next.1.token.Spoken ∧ ∀ t ∈ lx.next.2.pending, t.Spoken := by
  unfold next
  split
  · rename_i token pending hpending
    rw [hpending, List.forall_mem_cons] at h
    exact h
  · exact lx.read_spoken [] h

theorem stream_spoken (lx : Lexer) (h : ∀ t ∈ lx.pending, t.Spoken) :
    ∀ lexed ∈ lx.stream.tokens, lexed.token.Spoken := by
  obtain ⟨htoken, hpending⟩ := lx.next_spoken h
  rw [stream]
  split
  · exact List.forall_mem_nil _
  · refine List.forall_mem_cons.mpr ⟨htoken, ?_⟩
    exact stream_spoken lx.next.2 hpending
termination_by lx.remaining
decreasing_by exact lx.next_remaining_lt ‹_›

end Lexer

/-- Every token of a source carries what its kind promises. -/
theorem TokenStream.ofSource_spoken (source : Source) :
    ∀ lexed ∈ (ofSource source).tokens, lexed.token.Spoken :=
  (Lexer.start source).stream_spoken (List.forall_mem_nil _)

end BraceLang
