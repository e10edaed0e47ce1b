import BraceLang.Proofs.Grammar.Outcome
import BraceLang.Proofs.Node.Spelling

/-! What parsers give at a place whose tokens are known up to the end. `Yields p ls good rest` says that
    the parser succeeds on the lexemes `ls`, gives a good value, reports nothing and leaves `rest`; it
    goes through sequences, branches and loops, so a rule is followed token by token. -/

namespace BraceLang.Grammar

variable {α β : Type} {s t : State} {l : Lexeme} {ls mid rest : List Lexeme}

/-- The tokens ahead say just these lexemes, nothing is wrong with them or with the end, and nothing has
    been reported. -/
structure State.Sees (s : State) (ls : List Lexeme) : Prop where
  lexemes : s.ahead.map (·.token.lexeme) = ls
  faultless : ∀ lexed ∈ s.eof :: s.ahead, lexed.errors = []
  quiet : s.log.toList = []

theorem mem_of_upcoming? {eof lexed : Lexed} {ahead : List Lexed} {n : Nat}
    (h : upcoming? eof ahead n = some lexed) : lexed ∈ eof :: ahead := by
  fun_induction upcoming? eof ahead n with
  | case1 =>
    cases h
    exact List.mem_cons_self
  | case2 => cases h
  | case3 =>
    cases h
    exact List.mem_cons_of_mem _ List.mem_cons_self
  | case4 first ahead n ih =>
    rcases List.mem_cons.mp (ih h) with rfl | hmem
    · exact List.mem_cons_self
    · exact List.mem_cons_of_mem _ (List.mem_cons_of_mem _ hmem)

theorem lexicalReports_of_upcoming? {eof lexed : Lexed} {ahead : List Lexed} {n : Nat}
    (faultless : ∀ lexed ∈ eof :: ahead, lexed.errors = []) (h : upcoming? eof ahead n = some lexed) :
    lexicalReports lexed = [] := by
  rw [lexicalReports, faultless lexed (mem_of_upcoming? h), List.map_nil]

theorem State.kind_eq_nearest (s : State) : s.kind = nearest (s.ahead.map (·.token.lexeme)) := by
  rw [State.kind, State.current]
  cases s.ahead with
  | nil => exact s.eof_kind
  | cons lexed ahead => rfl

namespace State.Sees

/-- At the start of a stream its tokens are seen. -/
theorem start {stream : TokenStream} (h : stream.Says ls) : (State.start stream).Sees ls := by
  refine ⟨h.lexemes, h.faultless, ?_⟩
  show (Log.empty.append _).toList = []
  rw [Log.toList_append, Log.toList_empty, List.nil_append, List.flatMap_eq_nil_iff]
  intro lexed hlexed
  obtain ⟨n, -, hn⟩ := List.mem_filterMap.mp hlexed
  exact lexicalReports_of_upcoming? h.faultless hn

theorem kind (h : s.Sees ls) : s.kind = nearest ls := by
  rw [← h.lexemes, s.kind_eq_nearest]

theorem peek (h : s.Sees ls) (n : Nat) : s.peek n = nearest (ls.drop n) := by
  rw [← h.lexemes, ← List.map_drop, State.peek, ← List.head?_drop]
  cases s.ahead.drop n with
  | nil => rfl
  | cons lexed ahead => rfl

theorem remaining (h : s.Sees ls) : s.remaining = ls.length := by
  rw [s.remaining_eq, ← h.lexemes, List.length_map]

theorem current (h : s.Sees (l :: ls)) : s.current.lexeme = l := by
  have hlexemes := h.lexemes
  unfold State.current
  cases hahead : s.ahead with
  | nil =>
    rw [hahead] at hlexemes
    cases hlexemes
  | cons lexed ahead =>
    rw [hahead, List.map_cons] at hlexemes
    exact (List.cons.inj hlexemes).1

theorem advance (h : s.Sees (l :: ls)) : s.advance.Sees ls := by
  refine ⟨?_, ?_, ?_⟩
  · show s.ahead.tail.map _ = ls
    rw [List.map_tail, h.lexemes, List.tail_cons]
  · intro lexed hlexed
    apply h.faultless
    rcases List.mem_cons.mp hlexed with rfl | hlexed
    · exact List.mem_cons_self
    · exact List.mem_cons_of_mem _ (List.mem_of_mem_tail hlexed)
  · show (s.log.append _).toList = []
    rw [Log.toList_append, h.quiet, List.nil_append, List.flatMap_eq_nil_iff]
    intro lexed hlexed
    exact lexicalReports_of_upcoming? h.faultless (Option.mem_toList.mp hlexed)

theorem identified (h : s.Sees ls) : s.identified.Sees ls := ⟨h.lexemes, h.faultless, h.quiet⟩

end State.Sees

/-- Wherever the lexemes `ls` lie ahead, the parser gives a good value and stops before `rest`. -/
def Yields (p : Parser α) (ls : List Lexeme) (good : α → Prop) (rest : List Lexeme) : Prop :=
  ∀ s : State, s.Sees ls → ∃ a t, p s = .ok a t ∧ good a ∧ t.Sees rest

namespace Yields

variable {p : Parser α} {f : α → Parser β} {mids goods : α → Prop} {good : β → Prop}

/-! ### Sequences -/

theorem pure {a : α} (h : goods a) : Yields (Pure.pure a) ls goods ls :=
  fun s hs => ⟨a, s, rfl, h, hs⟩

theorem mono (h : Yields p ls mids rest) (imp : ∀ a, mids a → goods a) : Yields p ls goods rest := by
  intro s hs
  obtain ⟨a, t, hp, ha, ht⟩ := h s hs
  exact ⟨a, t, hp, imp a ha, ht⟩

theorem bind (hp : Yields p ls mids mid) (hf : ∀ a, mids a → Yields (f a) mid good rest) :
    Yields (p >>= f) ls good rest := by
  intro s hs
  obtain ⟨a, t, hp, ha, ht⟩ := hp s hs
  rw [bind_of_ok hp]
  exact hf a ha t ht

/-! ### Looking at tokens and taking them -/

theorem kind_bind {f : Kind → Parser β} (h : Yields (f (nearest ls)) ls good rest) :
    Yields (kind >>= f) ls good rest := by
  intro s hs
  rw [Grammar.kind_bind, hs.kind]
  exact h s hs

theorem check_bind {k : Kind} {f : Bool → Parser β} (h : Yields (f (nearest ls == k)) ls good rest) :
    Yields (check k >>= f) ls good rest := by
  intro s hs
  rw [Grammar.check_bind, hs.kind]
  exact h s hs

theorem peek_bind {n : Nat} {f : Kind → Parser β} (h : Yields (f (nearest (ls.drop n))) ls good rest) :
    Yields (peek n >>= f) ls good rest := by
  intro s hs
  rw [Grammar.peek_bind, hs.peek]
  exact h s hs

theorem here_bind {f : Range → Parser β} (h : ∀ range, Yields (f range) ls good rest) :
    Yields (here >>= f) ls good rest :=
  fun s hs => h s.current.range s hs

theorem get_bind {f : State → Parser β} (h : ∀ s, Yields (f s) ls good rest) :
    Yields (get >>= f) ls good rest :=
  fun s hs => h s s hs

theorem advance_bind {f : Token → Parser β}
    (h : ∀ token : Token, token.lexeme = l → Yields (f token) ls good rest) :
    Yields (advance >>= f) (l :: ls) good rest :=
  fun s hs => h s.current hs.current s.advance hs.advance

theorem eat_bind {f : Bool → Parser β} (h : Yields (f true) ls good rest) :
    Yields (eat l.kind >>= f) (l :: ls) good rest := by
  intro s hs
  have hkind : s.kind = l.kind := hs.kind
  rw [Grammar.eat_bind, if_pos hkind]
  exact h s.advance hs.advance

theorem eat_bind_of_ne {k : Kind} {f : Bool → Parser β} (hk : nearest ls ≠ k)
    (h : Yields (f false) ls good rest) : Yields (eat k >>= f) ls good rest := by
  intro s hs
  rw [Grammar.eat_bind, if_neg (by rw [hs.kind]; exact hk)]
  exact h s hs

theorem expect_bind {f : Token → Parser β}
    (h : ∀ token : Token, token.lexeme = l → Yields (f token) ls good rest) :
    Yields (expect l.kind >>= f) (l :: ls) good rest := by
  intro s hs
  have hkind : s.kind = l.kind := hs.kind
  rw [Grammar.expect_bind, if_pos hkind]
  exact h s.current hs.current s.advance hs.advance

/-! ### Building nodes -/

theorem node {shape : Shape Node} {range : Range} :
    Yields (node shape range) ls (fun n => ∃ id, n = ⟨id, range, none, shape⟩) ls :=
  fun s hs => ⟨_, _, node_run shape range s, ⟨s.nextId, rfl⟩, hs.identified⟩

theorem close {start : Range} {shape : Shape Node} :
    Yields (close start shape) ls (fun n => ∃ id range, n = ⟨id, range, none, shape⟩) ls :=
  fun s hs => ⟨_, _, close_run start shape s, ⟨s.nextId, s.rangeFrom start, rfl⟩, hs.identified⟩

/-! ### Levels and loops -/

theorem nested (h : Yields p ls goods rest) : Yields (nested p) ls goods rest := by
  intro s hs
  obtain ⟨a, t, hp, ha, ht⟩ := h { s with depth := s.depth + 1 } ⟨hs.lexemes, hs.faultless, hs.quiet⟩
  exact ⟨a, _, nested_eq_ok.mpr ⟨t, hp, rfl⟩, ha, ht.lexemes, ht.faultless, ht.quiet⟩

theorem withStructLiterals {allowed : Bool} (h : Yields p ls goods rest) :
    Yields (withStructLiterals allowed p) ls goods rest := by
  intro s hs
  obtain ⟨a, t, hp, ha, ht⟩ := h { s with structLiterals := allowed }
    ⟨hs.lexemes, hs.faultless, hs.quiet⟩
  exact ⟨a, _, withStructLiterals_eq_ok.mpr ⟨t, hp, rfl⟩, ha, ht.lexemes, ht.faultless, ht.quiet⟩

variable {step : α → Parser (ForInStep α)} {a : α}

theorem repeating_done (h : Yields (step a) ls (fun r => ∃ b, r = .done b ∧ goods b) rest) :
    Yields (repeating a step) ls goods rest := by
  intro s hs
  obtain ⟨_, t, hstep, ⟨b, rfl, hb⟩, ht⟩ := h s hs
  exact ⟨b, t, repeatFrom_of_done hstep, hb, ht⟩

theorem repeating_yield (h : Yields (step a) ls (fun r => ∃ b, r = .yield b ∧ mids b) mid)
    (shorter : mid.length < ls.length)
    (next : ∀ b, mids b → Yields (repeating b step) mid goods rest) :
    Yields (repeating a step) ls goods rest := by
  intro s hs
  obtain ⟨_, t, hstep, ⟨b, rfl, hb⟩, ht⟩ := h s hs
  obtain ⟨c, u, hrun, hc, hu⟩ := next b hb t ht
  have hlt : t.remaining < s.remaining := by rwa [ht.remaining, hs.remaining]
  exact ⟨c, u, (repeatFrom_of_yield hstep hlt).trans hrun, hc, hu⟩

end Yields

end BraceLang.Grammar
