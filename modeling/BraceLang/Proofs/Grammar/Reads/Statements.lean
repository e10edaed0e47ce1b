import BraceLang.Proofs.Grammar.Reads.Declarations

/-! What the parsers of statements read, and that recovery from an error takes a token at least. -/

namespace BraceLang.Grammar

variable {r : Rules} {s t : State} {n : Node}

/-! ### Recovery -/

theorem skipUnmoved_remaining_lt {mark : Nat} (hs : s.remaining ≤ mark) (hmark : 0 < mark)
    (e : skipUnmoved mark s = .ok () t) : t.remaining < mark := by
  rw [skipUnmoved, get_bind, check_bind] at e
  by_cases hk : s.kind = .eof
  · rcases ite_eq_ok.mp e with ⟨hc, e⟩ | ⟨-, e⟩
    · simp [hk] at hc
    · obtain ⟨-, rfl⟩ := pure_eq_ok.mp e
      have hnil : s.remaining = 0 := by
        cases hahead : s.ahead with
        | nil => rw [s.remaining_eq, hahead, List.length_nil]
        | cons lexed rest =>
          have := s.ahead_kind lexed (by simp [hahead])
          simp only [State.kind, State.current, hahead] at hk
          exact absurd hk this
      omega
  · have hstep := State.remaining_advance hk
    rcases ite_eq_ok.mp e with ⟨-, e⟩ | ⟨hc, e⟩
    · obtain ⟨-, rfl⟩ := pure_eq_ok.mp e
      omega
    · obtain ⟨-, rfl⟩ := pure_eq_ok.mp e
      have : s.remaining ≠ mark := by simpa [hk] using hc
      omega

theorem synchronize_remaining_lt {mark : Nat} {inBlock : Bool} (hs : s.remaining ≤ mark)
    (hmark : 0 < mark) (e : synchronize mark inBlock s = .ok () t) : t.remaining < mark := by
  rw [synchronize, modify_bind] at e
  obtain ⟨_, u, hskip, e⟩ := bind_eq_ok.mp e
  have hlt := skipUnmoved_remaining_lt (s := { s with pendingAsync := none }) hs hmark hskip
  have hmoves : Moves u t := Agrees.moves (Plain.skipToBoundary inBlock).agrees e
  exact Nat.lt_of_le_of_lt hmoves.remaining_le hlt

theorem State.complaints_report (s : State) (e : ParseError) :
    State.complaints { s with log := s.log.push e.toDiagnostic } = s.complaints + 1 := by
  simp [State.complaints, e.isSyntax_toDiagnostic]

/-- After a syntax error nothing is promised about words, only that a token is taken. -/
theorem Reads.of_complaint (hmoves : Moves s t) (hlt : t.remaining < s.remaining)
    (hcomplaint : s.complaints < t.complaints) : Reads s 1 [] t :=
  ⟨hmoves, hlt, fun _ h => absurd h (Nat.ne_of_gt hcomplaint), fun _ h => absurd h List.not_mem_nil⟩

/-- What going on to the next statement does: there is none, or it is read, or it cannot be read and is
    skipped. -/
theorem statementStep_cases {p : Parser Node} {inBlock : Bool} {items : Array Node}
    {step : ForInStep (Array Node)} (e : statementStep p inBlock items s = .ok step t) :
    (step = .done items ∧ s = t ∧ (s.kind = .eof ∨ inBlock = true ∧ s.kind = .rBrace)) ∨
    (∃ item, p s = .ok item t ∧ step = .yield (items.push item)) ∨
    ∃ err u, p s = .error err u ∧ s.kind ≠ .eof ∧ (inBlock = true → s.kind ≠ .rBrace) ∧
      synchronize s.remaining inBlock { u with log := u.log.push err.toDiagnostic } = .ok () t ∧
      step = .yield items := by
  rw [statementStep, check_bind, check_bind] at e
  rcases ite_eq_ok.mp e with ⟨hend, e⟩ | ⟨hgo, e⟩
  · obtain ⟨rfl, rfl⟩ := pure_eq_ok.mp e
    exact .inl ⟨rfl, rfl, by simpa using hend⟩
  rw [get_bind] at e
  obtain ⟨outcome, u, houtcome, e⟩ := bind_eq_ok.mp e
  cases hrun : p s with
  | ok item v =>
    simp only [attempt, hrun] at houtcome
    cases houtcome
    obtain ⟨rfl, rfl⟩ := pure_eq_ok.mp e
    exact .inr (.inl ⟨item, rfl, rfl⟩)
  | error err v =>
    simp only [attempt, hrun] at houtcome
    cases houtcome
    simp only [report_bind, bind_eq_ok, pure_eq_ok] at e
    obtain ⟨_, w, hsync, rfl, rfl⟩ := e
    refine .inr (.inr ⟨err, u, rfl, fun hk => hgo ?_, fun hblock hk => hgo ?_, hsync, rfl⟩)
    · simp [hk]
    · simp [hblock, hk]

theorem statementStep_reads {p : Parser Node} (hp : ReadsNode p) (hmoves : ∀ depth, Agrees depth p p)
    (inBlock : Bool) : StepReads collected (statementStep p inBlock) := by
  intro items s step t e
  rcases statementStep_cases e with ⟨rfl, rfl, -⟩ | ⟨item, hrun, rfl⟩ | ⟨err, u, hrun, hk, -, hsync, rfl⟩
  · exact .idle
  · exact (hp hrun).again (.of_eq collected_push)
  · have hfailed := (hmoves s.depth).moves_error hrun
    have hpos : 0 < s.remaining := by
      have := State.remaining_advance hk
      omega
    have hreported := hfailed.trans (.report u err)
    have hlt := synchronize_remaining_lt hreported.remaining_le hpos hsync
    have hsynced : Moves _ t := Agrees.moves (Agrees.synchronize s.remaining inBlock) hsync
    have hcomplaint : s.complaints < t.complaints := by
      have h₁ := hfailed.complaints_le
      have h₂ := hsynced.complaints_le
      rw [State.complaints_report] at h₂
      omega
    exact (Reads.of_complaint (hreported.trans hsynced) hlt hcomplaint).again
      (.of_eq (List.append_nil _))

theorem statements_reads {p : Parser Node} (hp : ReadsNode p) (hmoves : ∀ depth, Agrees depth p p)
    {inBlock : Bool} {items : List Node} (e : statements p inBlock s = .ok items t) :
    Reads s 0 (items.map .part) t := by
  obtain ⟨nodes, u, hnodes, e⟩ := bind_eq_ok.mp e
  obtain ⟨rfl, rfl⟩ := pure_eq_ok.mp e
  obtain ⟨ps, hps, hgroup⟩ := (statementStep_reads hp hmoves inBlock).repeating hnodes
  exact hps.regroup hgroup

theorem blockRule_reads (h : r.Read) : ReadsNode (blockRule r) := by
  intro s n t e
  simp only [blockRule, here_bind, bind_eq_ok, expect_eq_ok, withStructLiterals_eq_ok,
    close_eq_ok] at e
  obtain ⟨_, _, ⟨hopen, -, rfl⟩, body, _, ⟨u, hbody, rfl⟩, _, _, ⟨hclose, -, rfl⟩, rfl, rfl⟩ := e
  have hread := (Reads.mark hopen rfl).trans
    ((statements_reads h.statement h.moves hbody).withStructLiterals.trans (.mark hclose rfl))
  exact hread.node (by decide) (by simp [Shape.pieces, Shape.toList]) rfl

/-! ### Statements -/

theorem variableDecl_reads (h : r.Read) {mods : Modifiers} {start : Range} {required : Bool} :
    ReadsNode (variableDecl r [] mods start required) :=
  fun s _ _ e => (variableDecl_completes h e).reads (.refl s)

theorem condition_reads (h : r.Read) : ReadsNode (condition r) := by
  intro s n t e
  rw [condition, kind_bind] at e
  rcases ite_eq_ok.mp e with ⟨-, e⟩ | ⟨-, e⟩
  · rw [here_bind] at e
    exact (variableDecl_reads h).withStructLiterals e
  rw [check_bind, peek_bind] at e
  rcases ite_eq_ok.mp e with ⟨hk, e⟩ | ⟨-, e⟩
  · simp only [advance_bind, here_bind, bind_eq_ok, expect_eq_ok, pure_eq_ok] at e
    obtain ⟨decl, u, hdecl, _, _, ⟨hclose, -, rfl⟩, rfl, rfl⟩ := e
    have hparen : s.kind = .lParen := by
      simp only [Bool.and_eq_true, beq_iff_eq] at hk
      exact hk.1
    have hread := (Reads.mark hparen rfl).trans
      (((variableDecl_reads h).withStructLiterals hdecl).trans (.mark hclose rfl))
    exact hread.weaken (by decide)
  · exact h.expression.withStructLiterals e

theorem elseBranch_reads (h : r.Read) {branch : Option Node} (e : elseBranch r s = .ok branch t) :
    Reads s 0 (branch.toList.map .part) t := by
  rcases eat_ite_eq_ok.mp e with ⟨helse, e⟩ | ⟨-, e⟩
  · rcases check_ite_eq_ok.mp e with ⟨-, e⟩ | ⟨-, e⟩
    · obtain ⟨n, u, hn, e⟩ := bind_eq_ok.mp e
      obtain ⟨rfl, rfl⟩ := pure_eq_ok.mp e
      exact ((Reads.mark helse rfl).trans (h.elseIf hn)).weaken (Nat.zero_le _)
    · obtain ⟨n, u, hn, e⟩ := bind_eq_ok.mp e
      obtain ⟨rfl, rfl⟩ := pure_eq_ok.mp e
      exact ((Reads.mark helse rfl).trans (h.block hn)).weaken (Nat.zero_le _)
  · obtain ⟨rfl, rfl⟩ := pure_eq_ok.mp e
    exact .refl _

theorem ifRule_reads (h : r.Read) : ReadsNode (ifRule r) := by
  intro s n t e
  simp only [ifRule, here_bind, bind_eq_ok, expect_eq_ok, close_eq_ok] at e
  obtain ⟨_, _, ⟨hif, -, rfl⟩, cond, u, hcond, body, v, hbody, branch, w, hbranch, rfl, rfl⟩ := e
  have hread := ((Reads.mark hif rfl).trans (condition_reads h hcond)).trans
    ((h.block hbody).trans (elseBranch_reads h hbranch))
  exact hread.node (by decide) rfl rfl

theorem whileRule_reads (h : r.Read) (hk : s.kind = .kwWhile) (e : whileRule r s = .ok n t) :
    Reads s 1 [.part n] t := by
  simp only [whileRule, here_bind, advance_bind, bind_eq_ok, close_eq_ok] at e
  obtain ⟨cond, u, hcond, body, v, hbody, rfl, rfl⟩ := e
  have hread := ((Reads.mark hk rfl).trans (condition_reads h hcond)).trans (h.block hbody)
  exact hread.node (by decide) rfl rfl

theorem headerPart_reads (h : r.Read) {stop : Kind} (hstop : stop.isMark = true) {part : Option Node}
    (e : headerPart r stop s = .ok part t) : Reads s 1 (part.toList.map .part) t := by
  simp only [headerPart, bind_eq_ok, expect_eq_ok, pure_eq_ok] at e
  obtain ⟨part, u, hpart, _, _, ⟨hk, -, rfl⟩, rfl, rfl⟩ := e
  have hread := (optionalValue_reads h hpart).trans (.mark hk hstop)
  rwa [List.append_nil] at hread

theorem headerInit_reads (h : r.Read) {part : Option Node} (e : headerInit r s = .ok part t) :
    Reads s 1 (part.toList.map .part) t := by
  rw [headerInit, kind_bind] at e
  rcases ite_eq_ok.mp e with ⟨-, e⟩ | ⟨-, e⟩
  · simp only [here_bind, bind_eq_ok, expect_eq_ok, pure_eq_ok] at e
    obtain ⟨decl, u, hdecl, _, _, ⟨hsemi, -, rfl⟩, rfl, rfl⟩ := e
    exact ((variableDecl_reads h hdecl).trans (.mark hsemi rfl)).weaken (by decide)
  · exact headerPart_reads h rfl e

theorem forRule_reads (h : r.Read) : ReadsNode (forRule r) := by
  intro s n t e
  simp only [forRule, here_bind, bind_eq_ok, expect_eq_ok, close_eq_ok] at e
  obtain ⟨_, _, ⟨hfor, -, rfl⟩, _, _, ⟨hparen, -, rfl⟩, init, u, hinit, cond, v, hcond, step, w, hstep,
    body, x, hbody, rfl, rfl⟩ := e
  have hread := ((Reads.mark hfor rfl).trans (.mark hparen rfl)).trans ((headerInit_reads h hinit).trans
    ((headerPart_reads h rfl hcond).trans ((headerPart_reads h rfl hstep).trans (h.block hbody))))
  exact hread.node (by decide) (by simp [Shape.pieces, Shape.toList]) rfl

theorem expressionStatement_reads (h : r.Read) (start : Range) :
    ReadsNode (expressionStatement r start) := by
  intro s n t e
  simp only [expressionStatement, bind_eq_ok, close_eq_ok] at e
  obtain ⟨value, u, hvalue, rfl, rfl⟩ := e
  exact (h.expression hvalue).node (by decide) rfl rfl

theorem asyncStatement_reads (h : r.Read) (hk : s.kind = .kwAsync)
    (e : asyncStatement r s = .ok n t) : Reads s 1 [.part n] t := by
  simp only [asyncStatement, here_bind, advance_bind, modify_bind, bind_eq_ok] at e
  obtain ⟨b, u, hb, e⟩ := e
  obtain rfl := atFunctionDecl_eq_ok hb
  have htaken : Reads s 1 [] { s.advance with pendingAsync := some s.current.range } := by
    have hadvance := Reads.mark hk rfl
    exact ⟨hadvance.moves.trans (.setPendingAsync _ _), hadvance.takes, hadvance.words, hadvance.proper⟩
  rcases ite_eq_ok.mp e with ⟨-, e⟩ | ⟨-, e⟩
  · exact (htaken.trans ((declarationAfter_completes h e).reads (.refl _))).weaken (by decide)
  · exact (htaken.trans (expressionStatement_reads h _ e)).weaken (by decide)

theorem statementBody_reads (h : r.Read) : ReadsNode (statementBody r) := by
  intro s n t e
  rw [statementBody, here_bind, kind_bind] at e
  generalize hk : s.kind = k at e
  split at e
  case h_9 =>
    obtain ⟨b, u, hb, e⟩ := bind_eq_ok.mp e
    obtain rfl := atFunctionDecl_eq_ok hb
    rcases ite_eq_ok.mp e with ⟨-, e⟩ | ⟨-, e⟩
    · exact declaration_reads h e
    · exact expressionStatement_reads h _ e
  case h_10 =>
    rw [peek_bind] at e
    rcases ite_eq_ok.mp e with ⟨-, e⟩ | ⟨-, e⟩
    · exact asyncStatement_reads h hk e
    · exact expressionStatement_reads h _ e
  case h_11 => exact h.block e
  case h_12 => exact ifRule_reads h e
  case h_13 => exact whileRule_reads h hk e
  case h_14 => exact forRule_reads h e
  case h_15 =>
    simp only [advance_bind, bind_eq_ok, close_eq_ok] at e
    obtain ⟨statement, u, hstatement, rfl, rfl⟩ := e
    exact ((Reads.mark hk rfl).trans (h.statement hstatement)).node (by decide) rfl rfl
  case h_16 =>
    simp only [advance_bind, bind_eq_ok, close_eq_ok] at e
    obtain ⟨value, u, hvalue, rfl, rfl⟩ := e
    exact ((Reads.mark hk rfl).trans (optionalValue_reads h hvalue)).node (by decide) rfl rfl
  case h_17 | h_18 =>
    simp only [advance_bind, close_eq_ok] at e
    obtain ⟨rfl, rfl⟩ := e
    exact (Reads.mark hk rfl).node (by decide) rfl rfl
  case h_19 => exact expressionStatement_reads h _ e
  all_goals exact declaration_reads h e

theorem statementRule_reads (h : r.Read) : ReadsNode (statementRule r) := by
  intro s n t e
  simp only [statementRule, bind_eq_ok, pure_eq_ok] at e
  obtain ⟨statement, u, hstatement, b, v, hb, rfl, rfl⟩ := e
  exact (statementBody_reads h hstatement).trans (.eat rfl hb)

end BraceLang.Grammar
