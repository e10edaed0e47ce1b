import BraceLang.Proofs.Grammar.Conduct.Statements
import BraceLang.Proofs.Token.Calls

/-! The tokens in sight. A parser that keeps a lexer reads each token only when it comes into sight, four
    places ahead, and the lexer reports into the log that the parser reports into (`Ring`). Whatever the parser
    does, it sees the tokens that the lexer gives by itself, and what is wrong with the characters is
    reported as if the lexer had run alone (`Ring.Shows`).

    So it makes no difference that the places of the grammar have all tokens at hand. -/

namespace BraceLang

/-! ### Lexical diagnostics -/

/-- Whether the code of a diagnostic is `E00` and two digits. -/
def Diagnostic.isLexical (d : Diagnostic) : Bool :=
  d.code.any fun code => code.toList.take 3 == ['E', '0', '0']

theorem Code.isLexical_text (code : Code) :
    (code.text.toList.take 3 == ['E', '0', '0']) = decide (code.category = .lexical) := by
  cases code <;> decide

theorem LexError.isLexical_toDiagnostic (e : LexError) : e.toDiagnostic.isLexical = true := by
  have hcode : e.toDiagnostic.code = some e.cause.code.text := Diagnostic.code_withHelp? _ _
  rw [Diagnostic.isLexical, hcode, Option.any_some, Code.isLexical_text]
  cases e.cause <;> rfl

theorem ParseError.isLexical_toDiagnostic (e : ParseError) : e.toDiagnostic.isLexical = false := by
  have hcode : e.toDiagnostic.code = some e.cause.code.text := Diagnostic.code_withHelp? _ _
  rw [Diagnostic.isLexical, hcode, Option.any_some, Code.isLexical_text]
  cases e.cause <;> rfl

namespace Grammar

theorem filter_isLexical_reports (lexed : Lexed) :
    (lexicalReports lexed).filter (·.isLexical) = lexicalReports lexed := by
  refine List.filter_eq_self.mpr fun d hd => ?_
  obtain ⟨e, -, rfl⟩ := List.mem_map.mp hd
  exact e.isLexical_toDiagnostic

/-! ### Tokens to come -/

/-- The token `n` places ahead. Behind the end comes the end again, with nothing wrong. -/
def coming (eof : Lexed) (ahead : List Lexed) (n : Nat) : Lexed :=
  (upcoming? eof ahead n).getD ⟨eof.token, []⟩

section Coming
variable (eof : Lexed)

theorem reports_upcoming? (ahead : List Lexed) (n : Nat) :
    (upcoming? eof ahead n).toList.flatMap lexicalReports = lexicalReports (coming eof ahead n) := by
  unfold coming
  cases upcoming? eof ahead n with
  | none => rfl
  | some lexed => exact List.flatMap_singleton _ _

theorem coming_nil_token (n : Nat) : (coming eof [] n).token = eof.token := by
  cases n <;> rfl

theorem coming_cons_succ (first : Lexed) (rest : List Lexed) (n : Nat) :
    coming eof (first :: rest) (n + 1) = coming eof rest n := rfl

theorem coming_drop_token (tokens : List Lexed) (n i : Nat) :
    (coming eof (tokens.drop n) i).token = (coming eof tokens (n + i)).token := by
  induction tokens generalizing n with
  | nil => rw [List.drop_nil, coming_nil_token, coming_nil_token]
  | cons first rest ih =>
    cases n with
    | zero => rw [List.drop_zero, Nat.zero_add]
    | succ n => rw [List.drop_succ_cons, ih, Nat.add_right_comm, coming_cons_succ]

/-- Behind the nearest token, also what is wrong is that of the whole stream. -/
theorem coming_drop_succ (tokens : List Lexed) (n i : Nat) :
    coming eof (tokens.drop n) (i + 1) = coming eof tokens (n + (i + 1)) := by
  induction tokens generalizing n with
  | nil => rw [List.drop_nil]; rfl
  | cons first rest ih =>
    cases n with
    | zero => rw [List.drop_zero, Nat.zero_add]
    | succ n => rw [List.drop_succ_cons, ih, Nat.add_right_comm, coming_cons_succ]

/-- The reports on all tokens up to the end and any number behind it. -/
theorem flatMap_reports_coming {tokens : List Lexed} {m : Nat} (h : tokens.length < m) :
    (List.range m).flatMap (fun n => lexicalReports (coming eof tokens n)) =
      tokens.flatMap lexicalReports ++ lexicalReports eof := by
  obtain ⟨m, rfl⟩ : ∃ k, m = k + 1 := Nat.exists_eq_succ_of_ne_zero (Nat.ne_zero_of_lt h)
  rw [List.range_succ_eq_map, List.flatMap_cons, List.flatMap_map]
  induction tokens generalizing m with
  | nil =>
    have behind : (List.range m).flatMap (fun i => lexicalReports (coming eof [] (i + 1))) = [] :=
      List.flatMap_eq_nil_iff.mpr fun _ _ => rfl
    rw [behind, List.append_nil]
    rfl
  | cons first rest ih =>
    obtain ⟨m, rfl⟩ : ∃ k, m = k + 1 :=
      Nat.exists_eq_succ_of_ne_zero (Nat.ne_zero_of_lt (Nat.lt_of_succ_lt_succ h))
    rw [List.range_succ_eq_map, List.flatMap_cons, List.flatMap_map, List.flatMap_cons, List.append_assoc]
    exact congrArg _ (ih m (Nat.lt_of_succ_lt_succ h))

end Coming

theorem State.current_eq (s : State) : s.current = (coming s.eof s.ahead 0).token := by
  unfold State.current
  cases s.ahead <;> rfl

theorem State.peek_eq (s : State) (n : Nat) : s.peek n = (coming s.eof s.ahead n).token.kind := by
  have heof := s.eof_kind
  unfold State.peek
  generalize s.ahead = ahead
  induction ahead generalizing n with
  | nil =>
    rw [coming_nil_token, heof]
    rfl
  | cons first rest ih =>
    cases n with
    | zero => rfl
    | succ n => exact ih n

/-- The calls of a lexer give the tokens of its stream, and then the end. -/
theorem call_eq_coming {lx : Lexer} (h : lx.Ready) (n : Nat) :
    lx.call n = coming lx.stream.eof lx.stream.tokens n := by
  induction n generalizing lx with
  | zero =>
    by_cases hkind : lx.next.1.token.kind = .eof
    · obtain ⟨htokens, heof⟩ := Lexer.stream_of_eof hkind
      rw [htokens, heof]
      rfl
    · rw [(Lexer.stream_of_token hkind).1]
      rfl
  | succ n ih =>
    rw [Lexer.call_succ]
    by_cases hkind : lx.next.1.token.kind = .eof
    · obtain ⟨htokens, heof⟩ := Lexer.stream_of_eof hkind
      obtain ⟨htoken, hended⟩ := Lexer.next_of_eof h hkind
      rw [htokens, heof, Lexer.call_of_ended hended, Lexer.endRange, Lexer.next_source]
      exact congrArg (Lexed.mk · []) htoken.symm
    · obtain ⟨htokens, heof⟩ := Lexer.stream_of_token hkind
      rw [htokens, heof, coming_cons_succ, ih (Lexer.ready_next h)]

/-! ### The ring -/

/-- A lexer, the tokens read off it that are in sight, and the log that it reports into. -/
structure Ring where
  lexer : Lexer
  tokens : List Token
  log : Log

namespace Ring

/-- One more token comes into sight. -/
def read (r : Ring) : Ring :=
  { lexer := r.lexer.next.2
    tokens := r.tokens ++ [r.lexer.next.1.token]
    log := r.log.append (lexicalReports r.lexer.next.1) }

/-- Tokens are read until there are enough in sight. -/
def fill (r : Ring) : Ring := read^[lookahead - r.tokens.length] r

/-- The start of a source. -/
def start (source : Source) : Ring := fill ⟨Lexer.start source, [], Log.empty⟩

/-- The nearest token is taken. -/
def advance (r : Ring) : Ring := fill { r with tokens := r.tokens.tail }

/-- The ring after an effect. -/
def on (r : Ring) : Effect → Ring
  | .take => r.advance
  | .report e => { r with log := r.log.push e.toDiagnostic }
  | .identify | .allow _ | .nest _ | .hold _ => r

/-- The ring after some effects. -/
def undergo (r : Ring) (effects : List Effect) : Ring := effects.foldl on r

theorem iterate_read (r : Ring) (n : Nat) :
    read^[n] r =
      { lexer := r.lexer.afterCalls n
        tokens := r.tokens ++ (r.lexer.calls n).map (·.token)
        log := r.log.append ((r.lexer.calls n).flatMap lexicalReports) } := by
  induction n with
  | zero => simp [Lexer.afterCalls, Lexer.calls, Log.append]
  | succ n ih =>
    rw [Function.iterate_succ_apply', ih, read, Lexer.afterCalls_succ, Lexer.calls_succ, List.map_append,
      List.append_assoc, Log.append_append, List.flatMap_append, List.flatMap_singleton]
    rfl

/-- After `n` tokens were taken, the ring and the place of the grammar show the same: the tokens that the
    lexer gives from its call number `n` on, and a log in which the lexical diagnostics are those of the
    calls made so far. -/
structure Shows (source : Source) (n : Nat) (ring : Ring) (s : State) : Prop where
  lexer : ring.lexer = (Lexer.start source).afterCalls (n + lookahead)
  tokens : ring.tokens = (List.range' n lookahead).map fun i => ((Lexer.start source).call i).token
  log : ring.log = s.log
  ahead : s.ahead = (TokenStream.ofSource source).tokens.drop n
  eof : s.eof = (TokenStream.ofSource source).eof
  lexical : s.log.toList.filter (·.isLexical) =
    ((Lexer.start source).calls (n + lookahead)).flatMap lexicalReports

theorem call_eq (source : Source) (n : Nat) : (Lexer.start source).call n =
    coming (TokenStream.ofSource source).eof (TokenStream.ofSource source).tokens n :=
  call_eq_coming (Lexer.ready_start source) n

theorem start_shows (source : Source) :
    Shows source 0 (start source) (State.start (TokenStream.ofSource source)) := by
  have sight : ((List.range lookahead).filterMap (upcoming? (TokenStream.ofSource source).eof
      (TokenStream.ofSource source).tokens)).flatMap lexicalReports =
      ((Lexer.start source).calls lookahead).flatMap lexicalReports := by
    rw [Lexer.calls, List.flatMap_map, List.filterMap_eq_flatMap_toList, List.flatMap_assoc]
    exact List.flatMap_congr fun n _ => by rw [reports_upcoming?, call_eq]
  have log : (State.start (TokenStream.ofSource source)).log =
      Log.empty.append (((Lexer.start source).calls lookahead).flatMap lexicalReports) := by
    rw [← sight]
    rfl
  have ring : start source = _ := iterate_read ⟨Lexer.start source, [], Log.empty⟩ lookahead
  rw [ring]
  refine ⟨?_, ?_, log.symm, rfl, rfl, ?_⟩
  · rw [Nat.zero_add]
  · rw [List.nil_append, Lexer.calls, List.map_map, List.range_eq_range']
    rfl
  · rw [log, Log.toList_append, Log.toList_empty, List.nil_append, Nat.zero_add, List.filter_flatMap]
    exact List.flatMap_congr fun lexed _ => filter_isLexical_reports lexed

variable {source : Source} {n : Nat} {ring : Ring} {s : State}

theorem Shows.advance (h : Shows source n ring s) : Shows source (n + 1) ring.advance s.advance := by
  have length : lookahead - ring.tokens.tail.length = 1 := by
    rw [h.tokens, List.length_tail, List.length_map, List.length_range']
    rfl
  have next : ring.lexer.calls 1 = [(Lexer.start source).call (n + lookahead)] := by
    rw [h.lexer]
    rfl
  have reports : (upcoming? s.eof s.ahead lookahead).toList.flatMap lexicalReports =
      lexicalReports ((Lexer.start source).call (n + lookahead)) := by
    rw [reports_upcoming?, h.ahead, h.eof, call_eq]
    exact congrArg lexicalReports (coming_drop_succ _ _ n 3)
  have log : s.advance.log = s.log.append (lexicalReports ((Lexer.start source).call (n + lookahead))) := by
    rw [← reports]
    rfl
  have hring : ring.advance = read^[1] { ring with tokens := ring.tokens.tail } := by
    rw [Ring.advance, fill, length]
  rw [hring, iterate_read]
  dsimp only
  rw [next]
  refine ⟨?_, ?_, ?_, ?_, h.eof, ?_⟩
  · rw [h.lexer, Nat.add_right_comm n 1]
    exact (Lexer.afterCalls_succ _ _).symm
  · rw [h.tokens]
    rfl
  · rw [h.log, log, List.flatMap_singleton]
  · show s.ahead.tail = _
    rw [h.ahead, List.tail_drop]
  · rw [log, Log.toList_append, List.filter_append, h.lexical, filter_isLexical_reports, Nat.add_right_comm,
      Lexer.calls_succ, List.flatMap_append, List.flatMap_singleton]

theorem Shows.effect (h : Shows source n ring s) (e : Effect) :
    Shows source (n + if e.isTake then 1 else 0) (ring.on e) (e.on s) := by
  cases e with
  | take => exact h.advance
  | report e =>
    refine ⟨h.lexer, h.tokens, congrArg (Log.push · e.toDiagnostic) h.log, h.ahead, h.eof, ?_⟩
    rw [Effect.on, Log.toList_push, List.filter_append, h.lexical,
      List.filter_cons_of_neg (Bool.eq_false_iff.mp e.isLexical_toDiagnostic), List.filter_nil, List.append_nil]
    rfl
  | identify | allow | nest | hold => exact ⟨h.lexer, h.tokens, h.log, h.ahead, h.eof, h.lexical⟩

theorem Shows.undergo (h : Shows source n ring s) (effects : List Effect) :
    Shows source (n + effects.countP Effect.isTake) (ring.undergo effects) (s.undergo effects) := by
  induction effects generalizing n ring s with
  | nil => exact h
  | cons e effects ih =>
    rw [List.countP_cons, Nat.add_comm (effects.countP _), ← Nat.add_assoc]
    exact ih (h.effect e)

/-! ### What a ring shows -/

namespace Shows

theorem length (h : Shows source n ring s) : ring.tokens.length = lookahead := by
  rw [h.tokens, List.length_map, List.length_range']

theorem tokens_eq_calls (h : Shows source n ring s) :
    ring.tokens = (((Lexer.start source).calls (n + lookahead)).drop n).map (·.token) := by
  have window : (List.range (n + lookahead)).drop n = List.range' n lookahead := by
    rw [List.range_eq_range', List.drop_range', Nat.mul_one, Nat.zero_add, Nat.add_sub_cancel_left]
  rw [h.tokens, Lexer.calls, ← List.map_drop, window, List.map_map]
  rfl

theorem getElem? (h : Shows source n ring s) {i : Nat} (hi : i < lookahead) :
    ring.tokens[i]? = some (coming s.eof s.ahead i).token := by
  rw [h.tokens, List.getElem?_map, List.getElem?_range' hi, Nat.one_mul, Option.map_some, call_eq, h.ahead,
    h.eof, coming_drop_token]

/-- The nearest token is the first in sight. -/
theorem current (h : Shows source n ring s) : ring.tokens.head? = some s.current := by
  rw [List.head?_eq_getElem?, h.getElem? (by decide), State.current_eq]

theorem peek (h : Shows source n ring s) {i : Nat} (hi : i < lookahead) :
    ring.tokens[i]?.map (·.kind) = some (s.peek i) := by
  rw [h.getElem? hi, State.peek_eq]
  rfl

/-- Where the end is in sight, all that is wrong with the characters has been reported. -/
theorem lexical_of_end (h : Shows source n ring s) (hend : s.ahead.length < lookahead) :
    s.log.toList.filter (·.isLexical) = (TokenStream.ofSource source).errors.map LexError.toDiagnostic := by
  have taken : (TokenStream.ofSource source).tokens.length < n + lookahead := by
    rw [h.ahead, List.length_drop] at hend
    omega
  rw [h.lexical, Lexer.calls, List.flatMap_map, TokenStream.errors, List.map_append, List.map_flatMap]
  simp only [call_eq]
  exact flatMap_reports_coming _ taken

end Shows

end Ring

/-- When a source has been parsed, all that is wrong with its characters has been reported, and nothing else is
    reported of them. -/
theorem parse_lexical (source : Source) : (parse source).2.toList.filter (·.isLexical) =
    (TokenStream.ofSource source).errors.map LexError.toDiagnostic := by
  obtain ⟨-, t, ⟨effects, -, rfl⟩, hend, hlog⟩ := parse_conduct (State.within_everywhere
    (State.start (TokenStream.ofSource source)))
  rw [hlog]
  exact ((Ring.start_shows source).undergo effects).lexical_of_end (by rw [hend]; decide)

/-- Whatever a parser does at a source, and every rule does nothing but a few things, the ring holds four
    tokens: after `n` tokens were taken, those that the lexer gives from its call number `n` on. They are the
    tokens that the grammar sees, and the log that the lexer and the parser share is that of the grammar; in it
    the lexical diagnostics are those of the first `n + 4` calls. So when a source has been parsed, they are
    those of the lexer alone. -/
theorem lookahead_window (source : Source) :
    (∀ effects : List Effect,
      let n := effects.countP Effect.isTake
      let ring := (Ring.start source).undergo effects
      let s := (State.start (TokenStream.ofSource source)).undergo effects
      ring.tokens.length = lookahead ∧
      ring.tokens = (((Lexer.start source).calls (n + lookahead)).drop n).map (·.token) ∧
      ring.tokens.head? = some s.current ∧
      (∀ i < lookahead, ring.tokens[i]?.map (·.kind) = some (s.peek i)) ∧
      ring.log = s.log ∧
      ring.log.toList.filter (·.isLexical) =
        ((Lexer.start source).calls (n + lookahead)).flatMap lexicalReports) ∧
    (∀ rule ∈ [rules.expression, rules.type, rules.statement], ∀ s, ∃ effects,
      Outcome.stop (rule s) = s.undergo effects) ∧
    (∃ effects, (parse source).2 = ((Ring.start source).undergo effects).log) ∧
    (parse source).2.toList.filter (·.isLexical) =
      (TokenStream.ofSource source).errors.map LexError.toDiagnostic := by
  have shows (effects : List Effect) := (Ring.start_shows source).undergo effects
  simp only [Nat.zero_add] at shows
  obtain ⟨-, t, ⟨effects, -, rfl⟩, -, hlog⟩ := parse_conduct (State.within_everywhere
    (State.start (TokenStream.ofSource source)))
  refine ⟨fun effects => ?_, ?_, ⟨effects, hlog.trans (shows effects).log.symm⟩, parse_lexical source⟩
  · have h := shows effects
    exact ⟨h.length, h.tokens_eq_calls, h.current, fun i hi => h.peek hi, h.log, by rw [h.log, h.lexical]⟩
  · have conduct := Rules.within_conduct Area.everywhere nestingLimit
    intro rule hrule s
    simp only [List.mem_cons, List.not_mem_nil, or_false] at hrule
    rcases hrule with rfl | rfl | rfl
    · exact Upholds.effects conduct.expression s
    · exact Upholds.effects conduct.type s
    · exact Upholds.effects conduct.statement s

end Grammar

end BraceLang
