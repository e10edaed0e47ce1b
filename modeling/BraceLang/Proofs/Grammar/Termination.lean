import BraceLang.Proofs.Grammar.Nesting

/-! Parsing ends, and ends at the end of the text. Every loop of the grammar takes a token or is left
    (`Loops.Advance`), so it needs no cutoff (`Loop`); the rules refer to each other no deeper than the
    limit on nesting; and the statements of a program reach the end, whatever they hold. -/

namespace BraceLang.Grammar

variable {α : Type} {s t : State}

/-! ### Loops -/

/-- Every iteration of a loop takes a token or leaves the loop. -/
def Advances (step : α → Parser (ForInStep α)) : Prop :=
  ∀ ⦃a s b t⦄, step a s = .ok (.yield b) t → t.remaining < s.remaining

/-- The outcome of repeating a step for as long as it says so. -/
inductive Loop (step : α → Parser (ForInStep α)) : α → State → Outcome α → Prop where
  | done {a b : α} {s t : State} (h : step a s = .ok (.done b) t) : Loop step a s (.ok b t)
  | again {a b : α} {s t : State} {outcome : Outcome α} (h : step a s = .ok (.yield b) t)
    (rest : Loop step b t outcome) : Loop step a s outcome
  | failed {a : α} {s t : State} {e : ParseError} (h : step a s = .error e t) :
    Loop step a s (.error e t)

/-- A loop that advances comes to an end, and `repeating` gives what it comes to. -/
theorem Advances.loop {step : α → Parser (ForInStep α)} (h : Advances step) (a : α) (s : State) :
    Loop step a s (repeating a step s) := by
  show Loop step a s (repeatFrom step a s)
  fun_induction repeatFrom step a s with
  | case1 a s b t hstep => exact .done hstep
  | case2 a s b t hstep hlt ih => exact .again hstep ih
  | case3 a s b t hstep hge => exact absurd (h hstep) hge
  | case4 a s e t hstep => exact .failed hstep

theorem Loop.last_of_ok {step : α → Parser (ForInStep α)} {a b : α} {outcome : Outcome α}
    (h : Loop step a s outcome) (hok : outcome = .ok b t) :
    ∃ a' s', step a' s' = .ok (.done b) t := by
  induction h with
  | done hstep =>
    cases hok
    exact ⟨_, _, hstep⟩
  | again _ _ ih => exact ih hok
  | failed _ => cases hok

theorem Loop.last_of_error {step : α → Parser (ForInStep α)} {a : α} {e : ParseError}
    {outcome : Outcome α} (h : Loop step a s outcome) (herror : outcome = .error e t) :
    ∃ a' s', step a' s' = .error e t := by
  induction h with
  | done _ => cases herror
  | again _ _ ih => exact ih herror
  | failed hstep =>
    cases herror
    exact ⟨_, _, hstep⟩

theorem StepReads.advances {view : α → List (Piece Node)} {step : α → Parser (ForInStep α)}
    (h : StepReads view step) : Advances step := by
  intro a s b t e
  obtain ⟨ps, hps, -⟩ := h e
  exact hps.takes

theorem boundaryStep_advances (inBlock : Bool) : Advances (boundaryStep inBlock) := by
  intro braces s b t e
  rw [boundaryStep, kind_bind] at e
  generalize hk : s.kind = k at e
  have htaken : k ≠ .eof → s.advance.remaining < s.remaining := by
    intro hne
    have := State.remaining_advance (hk ▸ hne)
    omega
  split at e
  case h_1 => simp at e
  case h_2 =>
    rcases ite_eq_ok.mp e with ⟨-, e⟩ | ⟨-, e⟩
    · simp at e
    · obtain ⟨-, rfl⟩ := pure_eq_ok.mp e
      exact htaken (by decide)
  case h_3 | h_4 =>
    obtain ⟨-, rfl⟩ := pure_eq_ok.mp e
    exact htaken (by decide)
  case h_5 =>
    rcases ite_eq_ok.mp e with ⟨-, e⟩ | ⟨-, e⟩
    · simp at e
    · obtain ⟨-, rfl⟩ := pure_eq_ok.mp e
      exact htaken ‹k = .eof → False›

/-- The loops of the grammar, each with the step it repeats. -/
structure Rules.LoopsAdvance (r : Rules) : Prop where
  list (closing : Kind) : ∀ item ∈
      [r.expression, r.type, parameter r, fieldInit r, genericParameter r, enumOption r],
    Advances (listStep closing item)
  typeSuffixes (start : Range) : Advances (typeSuffixStep r start)
  path : Advances pathStep
  template : Advances (templateStep r)
  elements : Advances (elementStep r)
  suffixes (start : Range) : Advances (suffixStep r start)
  operators (limit : Nat) (start : Range) : Advances (binaryStep r limit start)
  attrs : Advances (attributeStep r)
  bars : Advances (barStep r)
  names : Advances patternStep
  union : Advances (unionStep r)
  separators : Advances separatorStep
  structMembers : Advances (structMemberStep r)
  modifiers : Advances modifierStep
  boundary (inBlock : Bool) : Advances (boundaryStep inBlock)
  statements (inBlock : Bool) : Advances (statementStep r.statement inBlock)

theorem Rules.Read.loopsAdvance {r : Rules} (h : r.Read) : r.LoopsAdvance where
  list closing item hitem := by
    have hread : ReadsNode item := by
      simp only [List.mem_cons, List.not_mem_nil, or_false] at hitem
      rcases hitem with rfl | rfl | rfl | rfl | rfl | rfl
      · exact h.expression
      · exact h.type
      · exact parameter_reads h
      · exact fieldInit_reads h
      · exact genericParameter_reads h
      · exact enumOption_reads h
    exact (listStep_reads hread).advances
  typeSuffixes start := (typeSuffixStep_reads h start).advances
  path := pathStep_reads.advances
  template := (templateStep_reads h).advances
  elements := (elementStep_reads h).advances
  suffixes start := (suffixStep_reads h start).advances
  operators limit start := (binaryStep_reads h limit start).advances
  attrs := (attributeStep_reads h).advances
  bars := (barStep_reads h).advances
  names := patternStep_reads.advances
  union := (unionStep_reads h).advances
  separators := separatorStep_reads.advances
  structMembers := (structMemberStep_reads h).advances
  modifiers := modifierStep_reads.advances
  boundary := boundaryStep_advances
  statements inBlock := (statementStep_reads h.statement h.moves inBlock).advances

/-! ### The end of the text -/

/-- A parser that never fails. -/
def Safe (p : Parser α) : Prop := ∀ s, ∃ a t, p s = .ok a t

namespace Safe

theorem pure {a : α} : Safe (pure a) := fun s => ⟨a, s, rfl⟩

theorem bind {β : Type} {x : Parser α} {f : α → Parser β} (hx : Safe x) (hf : ∀ a, Safe (f a)) :
    Safe (x >>= f) := by
  intro s
  obtain ⟨a, t, hrun⟩ := hx s
  rw [bind_of_ok hrun]
  exact hf a t

theorem ite {c : Prop} [Decidable c] {p q : Parser α} (hp : Safe p) (hq : Safe q) :
    Safe (if c then p else q) := by
  split
  · exact hp
  · exact hq

theorem kind : Safe kind := fun _ => ⟨_, _, rfl⟩

theorem check {k : Kind} : Safe (check k) := fun _ => ⟨_, _, rfl⟩

theorem get : Safe (get : Parser State) := fun _ => ⟨_, _, rfl⟩

theorem modify {f : State → State} : Safe (modify f : Parser PUnit) := fun _ => ⟨_, _, rfl⟩

theorem advance : Safe advance := fun _ => ⟨_, _, rfl⟩

theorem attempt {p : Parser α} : Safe (attempt p) := by
  intro s
  unfold Grammar.attempt
  cases p s with
  | ok a t => exact ⟨_, _, rfl⟩
  | error e t => exact ⟨_, _, rfl⟩

theorem repeating {step : α → Parser (ForInStep α)} {a : α} (hadvances : Advances step)
    (hstep : ∀ a, Safe (step a)) : Safe (repeating a step) := by
  intro s
  cases hrun : Grammar.repeating a step s with
  | ok b t => exact ⟨b, t, rfl⟩
  | error e t =>
    obtain ⟨a', s', hlast⟩ := (hadvances.loop a s).last_of_error hrun
    obtain ⟨b, u, hok⟩ := hstep a' s'
    rw [hok] at hlast
    cases hlast

theorem boundaryStep (inBlock : Bool) (braces : Nat) : Safe (boundaryStep inBlock braces) := by
  refine .bind .kind fun k => ?_
  split
  · exact .pure
  · exact .ite .pure (.bind .advance fun _ => .pure)
  · exact .bind .advance fun _ => .pure
  · exact .bind .advance fun _ => .pure
  · exact .ite .pure (.bind .advance fun _ => .pure)

theorem synchronize (mark : Nat) (inBlock : Bool) : Safe (synchronize mark inBlock) :=
  .bind .modify fun _ =>
    .bind (.bind .get fun _ => .bind .check fun _ => .ite (.bind .advance fun _ => .pure) .pure) fun _ =>
      .bind (.repeating (boundaryStep_advances inBlock) (boundaryStep inBlock)) fun _ => .pure

/-- Whatever a statement does, going on to the next one does not fail. -/
theorem statementStep (p : Parser Node) (inBlock : Bool) (items : Array Node) :
    Safe (statementStep p inBlock items) := by
  refine .bind .check fun _ => .bind .check fun _ => .ite .pure ?_
  refine .bind .get fun _ => .bind .attempt fun outcome => ?_
  split
  · exact .pure
  · exact .bind .modify fun _ => .bind (synchronize _ _) fun _ => .pure

end Safe

/-- Outside a block, only the end of the text ends the statements. -/
theorem statementStep_done {p : Parser Node} {items result : Array Node}
    (e : statementStep p false items s = .ok (.done result) t) : t.kind = .eof := by
  rcases statementStep_cases e with ⟨-, rfl, hend⟩ | ⟨_, -, hstep⟩ | ⟨_, _, -, -, -, -, hstep⟩
  · rcases hend with hend | ⟨hblock, -⟩
    · exact hend
    · cases hblock
  · cases hstep
  · cases hstep

theorem State.ahead_of_kind (h : s.kind = .eof) : s.ahead = [] := by
  cases hahead : s.ahead with
  | nil => rfl
  | cons lexed rest =>
    simp only [State.kind, State.current, hahead] at h
    exact absurd h (s.ahead_kind lexed (by simp [hahead]))

/-- The statements of a program are read up to the end of the text. -/
theorem statements_reach_end {r : Rules} (h : r.Read) (s : State) :
    ∃ items t, statements r.statement false s = .ok items t ∧ Moves s t ∧ t.ahead = [] := by
  have hadvances := h.loopsAdvance.statements false
  have hsafe : Safe (repeating #[] (statementStep r.statement false)) :=
    .repeating hadvances (Safe.statementStep r.statement false)
  obtain ⟨items, t, hrun⟩ := hsafe s
  have hstatements : statements r.statement false s = .ok items.toList t := bind_of_ok hrun
  obtain ⟨items', s', hlast⟩ := (hadvances.loop #[] s).last_of_ok hrun
  exact ⟨items.toList, t, hstatements, (statements_reads h.statement h.moves hstatements).moves,
    State.ahead_of_kind (statementStep_done hlast)⟩

/-- The tokens taken on a way from one place to another: `advance` takes the nearest token, and
    whatever else is done leaves the tokens ahead as they are. -/
inductive Takes : State → List Lexed → State → Prop where
  | stay {s t : State} (ahead : t.ahead = s.ahead) (eof : t.eof = s.eof) : Takes s [] t
  | advance {s t : State} {lexed : Lexed} {rest : List Lexed} (h : s.ahead.head? = some lexed)
    (more : Takes s.advance rest t) : Takes s (lexed :: rest) t

theorem Moves.takes (h : Moves s t) : ∃ taken, s.ahead = taken ++ t.ahead ∧ Takes s taken t := by
  obtain ⟨taken, htaken⟩ := h.ahead
  refine ⟨taken, htaken.symm, ?_⟩
  have heof := h.eof
  clear h
  induction taken generalizing s with
  | nil => exact .stay htaken heof
  | cons lexed rest ih =>
    refine .advance (by rw [← htaken]; rfl) (ih ?_ heof)
    show rest ++ t.ahead = s.ahead.tail
    rw [← htaken]
    rfl

theorem parse_eq {source : Source} {items : List Node}
    (h : statements rules.statement false (State.start (TokenStream.ofSource source)) = .ok items t) :
    parse source = (⟨source.id, items, t.nextId⟩, t.log) := by
  have hitems : itemsFrom rules (State.start (TokenStream.ofSource source)) = (items, t) := by
    rw [itemsFrom, h]
  show programFrom rules source.id (State.start (TokenStream.ofSource source)) = _
  rw [programFrom, hitems]

/-- Parsing always terminates and takes the whole text: every loop advances and so comes to an end
    without a cutoff, rules that succeed take a token, no rule is entered deeper than the limit, and the
    program is read up to the end with every token taken once and in order. -/
theorem parsing_terminates (source : Source) :
    (∀ n, (Rules.within n).LoopsAdvance) ∧
    (∀ (α : Type) (step : α → Parser (ForInStep α)), Advances step →
      ∀ a s, Loop step a s (repeating a step s)) ∧
    (∀ n, ∀ rule ∈ [(Rules.within n).statement, (Rules.within n).expression, (Rules.within n).type,
        (Rules.within n).structMember],
      ∀ s x t, rule s = .ok x t → t.remaining < s.remaining) ∧
    (∀ outside, rules.Agree 0 ((Rules.guarded nestingLimit)^[nestingLimit + 1] outside)) ∧
    ∃ items t,
      statements rules.statement false (State.start (TokenStream.ofSource source)) = .ok items t ∧
      parse source = (⟨source.id, items, t.nextId⟩, t.log) ∧
      t.kind = .eof ∧
      Takes (State.start (TokenStream.ofSource source)) (TokenStream.ofSource source).tokens t := by
  refine ⟨fun n => (Rules.within_read n).loopsAdvance, fun α step h => h.loop, ?_, ?_, ?_⟩
  · intro n rule hrule s x t e
    have hread := Rules.within_read n
    simp only [List.mem_cons, List.not_mem_nil, or_false] at hrule
    rcases hrule with rfl | rfl | rfl | rfl
    · exact (hread.statement e).takes
    · exact (hread.expression e).takes
    · exact (hread.type e).takes
    · exact (hread.structMember e).takes
  · intro outside
    have hagree := Rules.within_agree_guarded nestingLimit outside (nestingLimit + 1) 0
      (Nat.lt_succ_self _)
    rwa [Nat.sub_zero] at hagree
  · obtain ⟨items, t, hrun, hmoves, hahead⟩ := statements_reach_end (Rules.within_read nestingLimit)
      (State.start (TokenStream.ofSource source))
    obtain ⟨taken, htaken, htakes⟩ := hmoves.takes
    rw [hahead, List.append_nil] at htaken
    rw [← htaken] at htakes
    exact ⟨items, t, hrun, parse_eq hrun, State.kind_of_ahead_nil hahead, htakes⟩

end BraceLang.Grammar
