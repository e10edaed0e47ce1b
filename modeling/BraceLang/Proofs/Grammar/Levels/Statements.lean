import BraceLang.Proofs.Grammar.Levels.Declarations
import BraceLang.Proofs.Grammar.Termination

/-! Braces in statements and blocks, and among the tokens that are skipped after an error. Skipping
    counts the braces it meets itself and stops in front of one that it has not seen opened, so it closes
    nothing that was open before; but a brace that the failed statement had opened is not counted, and
    stays open. -/

namespace BraceLang.Grammar

variable {x : Reading} {r : Rules} {pre : Prop} {d : Nat} {s t u : State}

/-! ### Recovery -/

theorem Moves.kind_eq (h : Moves s t) (hremaining : t.remaining = s.remaining) : t.kind = s.kind := by
  rw [t.remaining_eq, s.remaining_eq] at hremaining
  have hahead : t.ahead = s.ahead := h.ahead.eq_of_length hremaining
  simp only [State.kind, State.current, hahead, h.eof]

theorem boundaryStep_crosses {braces : Nat} {step : ForInStep Nat}
    (e : boundaryStep true braces s = .ok step t) : Crosses s braces step.value t := by
  rw [boundaryStep, kind_bind] at e
  generalize hk : s.kind = k at e
  split at e
  case h_1 =>
    obtain ⟨rfl, rfl⟩ := pure_eq_ok.mp e
    exact .of_ahead_eq rfl
  case h_2 =>
    obtain ⟨rfl, rfl⟩ := pure_eq_ok.mp e
    exact .of_ahead_eq rfl
  case h_3 | h_4 =>
    obtain ⟨rfl, rfl⟩ := pure_eq_ok.mp e
    exact .advance hk rfl
  case h_5 hopens hunopened hopened =>
    rcases ite_eq_ok.mp e with ⟨-, e⟩ | ⟨-, e⟩
    · obtain ⟨rfl, rfl⟩ := pure_eq_ok.mp e
      exact .of_ahead_eq rfl
    · obtain ⟨rfl, rfl⟩ := pure_eq_ok.mp e
      have hcloses : k ≠ .rBrace := by
        intro hk
        cases braces with
        | zero => exact hunopened hk rfl
        | succ braces => exact hopened braces hk rfl
      exact .advance hk (Kind.level?_of_ne hopens hcloses)

theorem Loop.crosses {braces last : Nat} {o : Outcome Nat} (h : Loop (boundaryStep true) braces s o)
    (hok : o = .ok last t) : Crosses s braces last t := by
  induction h with
  | done hstep =>
    cases hok
    exact boundaryStep_crosses hstep
  | again hstep _ ih => exact (boundaryStep_crosses hstep).trans (ih hok)
  | failed _ => cases hok

/-- The token that is skipped by force is the one the failed statement began with. -/
theorem skipUnmoved_crosses (h : Moves s u) (hk : s.kind ≠ .rBrace)
    (e : skipUnmoved s.remaining u = .ok () t) : ∃ level, Crosses u 0 level t := by
  rw [skipUnmoved, get_bind, check_bind] at e
  rcases ite_eq_ok.mp e with ⟨hunmoved, e⟩ | ⟨-, e⟩
  · obtain ⟨-, rfl⟩ := pure_eq_ok.mp e
    have hremaining : u.remaining = s.remaining := by
      rw [Bool.and_eq_true, beq_iff_eq] at hunmoved
      exact hunmoved.1
    rw [← h.kind_eq hremaining] at hk
    by_cases hopens : u.kind = .lBrace
    · exact ⟨1, .advance hopens rfl⟩
    · exact ⟨0, .advance rfl (Kind.level?_of_ne hopens hk)⟩
  · obtain ⟨-, rfl⟩ := pure_eq_ok.mp e
    exact ⟨0, .of_ahead_eq rfl⟩

/-- What is skipped after an error in a block closes no brace that was open before. -/
theorem synchronize_crosses (h : Moves s u) (hk : s.kind ≠ .rBrace)
    (e : synchronize s.remaining true u = .ok () t) : ∃ level, Crosses u 0 level t := by
  rw [synchronize, modify_bind] at e
  obtain ⟨_, v, hforced, e⟩ := bind_eq_ok.mp e
  obtain ⟨level, hcrosses⟩ := skipUnmoved_crosses (h.trans (.setPendingAsync u none)) hk hforced
  obtain ⟨braces, w, hrun, e⟩ := bind_eq_ok.mp e
  obtain ⟨-, rfl⟩ := pure_eq_ok.mp e
  have hskipped : Crosses v 0 braces w := ((boundaryStep_advances true).loop 0 v).crosses hrun
  exact ⟨braces + level, hcrosses.onward hskipped⟩

/-! ### Statements in a row -/

namespace Steady

/-- A failed statement closes no brace that it has not opened, and neither does what is skipped after
    it. What both leave open was reported. -/
theorem failed {p : Parser Node} {items : Array Node} {err : ParseError}
    (hp : Steady x x.Sound p) (hrun : p s = .error err u) (hk : s.kind ≠ .rBrace)
    (hsync : synchronize s.remaining true { u with log := u.log.push err.toDiagnostic } = .ok () t) :
    Levels x (x.AllSound items.toList) 0 0 (fun step => x.AllSound step.value.toList) s
      (.ok (ForInStep.yield items) t) := by
  intro hs
  have hfailed := hp (x.AllSound items.toList) 0 s
  rw [hrun] at hfailed
  obtain ⟨hmoves, hlands⟩ := hfailed hs
  have hreported := hmoves.trans (.report u err)
  have hsynced : Moves _ t := Agrees.moves (Agrees.synchronize s.remaining true) hsync
  refine ⟨hreported.trans hsynced, fun hitems hquiet => ?_⟩
  have hloud : ¬x.quiet := by
    intro h
    have hcomplaints := hsynced.complaints_le
    rw [State.complaints_report, show t.complaints = 0 from hquiet h] at hcomplaints
    exact absurd hcomplaints (Nat.not_succ_le_zero _)
  obtain ⟨level, hcrosses, -⟩ := hlands hitems fun h => absurd h hloud
  obtain ⟨more, hskipped⟩ := synchronize_crosses hreported hk hsync
  exact ⟨more + level, hcrosses.onward hskipped, hitems, Nat.zero_le _, fun h => absurd h hloud⟩

theorem statementStep {p : Parser Node} (hp : Steady x x.Sound p) (items : Array Node) (s : State) :
    Levels x (x.AllSound items.toList) 0 0 (fun step => x.AllSound step.value.toList) s
      (statementStep p true items s) := by
  obtain ⟨step, t, hrun⟩ := Safe.statementStep p true items s
  rw [hrun]
  rcases statementStep_cases hrun with ⟨rfl, rfl, -⟩ | ⟨item, hitem, rfl⟩ | ⟨err, u, herr, -, hk, hsync, rfl⟩
  · exact .pure id
  · have hread := hp (x.AllSound items.toList) 0 s
    rw [hitem] at hread
    exact hread.after (.pure fun ⟨hitems, hsound⟩ => hitems.push hsound)
  · exact failed hp herr (hk rfl) hsync

theorem statements {p : Parser Node} (hp : Steady x x.Sound p) : Steady x x.AllSound (statements p true) := by
  intro pre d s
  have hlevels : Levels x pre 0 0 x.AllSound s (Grammar.statements p true s) :=
    .bind (.repeating (fun _ => .nil) fun items t => statementStep hp items t) fun _ _ => .pure And.right
  have hlifted := hlevels.lift d
  rwa [Nat.zero_add] at hlifted

/-! ### Blocks -/

/-- A range that is finished at a token goes from the one it starts with through that token. -/
theorem rangeFrom_advance_pos (hx : x.Ordered) {before inner after : List Lexed} {first last : Lexed}
    (htokens : x.tokens = before ++ first :: (inner ++ last :: after)) (hlast : s.current = last.token) :
    (s.advance.rangeFrom first.token.range).start.pos = first.token.range.start.pos ∧
      (s.advance.rangeFrom first.token.range).stop.pos = last.token.range.stop.pos := by
  unfold Reading.Ordered at hx
  rw [htokens, List.pairwise_append, List.pairwise_cons] at hx
  obtain ⟨hsource, hstart, hstop⟩ := hx.2.1.1 last (List.mem_append_right _ List.mem_cons_self)
  have hmerged : s.advance.rangeFrom first.token.range = first.token.range.merge s.current.range :=
    if_pos (hlast ▸ ⟨hsource, hstart⟩)
  rw [hmerged, hlast, Range.merge]
  split
  · exact ⟨rfl, rfl⟩
  · exact ⟨rfl, Nat.le_antisymm hstop (Nat.le_of_not_lt ‹_›)⟩

/-- A block is closed by the first brace at which the statements in it stop. -/
theorem block_sound (hx : x.Ordered) (h : r.Steady x) {n : Node} (e : Grammar.blockRule r s = .ok n t)
    (hs : s.ahead <:+ x.tokens) (hquiet : x.quiet → t.complaints = 0) : x.Sound n := by
  simp only [Grammar.blockRule, here_bind, bind_eq_ok, expect_eq_ok, withStructLiterals_eq_ok,
    close_eq_ok] at e
  obtain ⟨_, _, ⟨hopen, -, rfl⟩, body, _, ⟨u, hbody, rfl⟩, _, _, ⟨hclose, -, rfl⟩, rfl, rfl⟩ := e
  replace hclose : u.kind = .rBrace := hclose
  have hlevels := statements h.statement True 0 { s.advance with structLiterals := true }
  rw [hbody] at hlevels
  obtain ⟨-, hlands⟩ := hlevels ((Moves.advance s).ahead.trans hs)
  have hinside : x.quiet → u.complaints = 0 :=
    fun h => Nat.le_zero.mp (hquiet h ▸ (Moves.advance _).complaints_le)
  obtain ⟨level, ⟨inner, hinner, hlevel⟩, hsound, -, hexact⟩ := hlands trivial hinside
  -- the tokens from the opening brace on
  obtain ⟨opening, rest, hahead, hopening⟩ := State.ahead_of_kind_ne (hopen ▸ Kind.noConfusion : s.kind ≠ .eof)
  obtain ⟨closing, after, hlast, hclosing⟩ := State.ahead_of_kind_ne (hclose ▸ Kind.noConfusion : u.kind ≠ .eof)
  obtain ⟨before, hbefore⟩ := hs
  have htokens : x.tokens = before ++ opening :: (inner ++ closing :: after) := by
    replace hinner : s.ahead.tail = inner ++ u.ahead := hinner
    rw [← hbefore, hahead, ← hlast, ← hinner, hahead, List.tail_cons]
  obtain ⟨hstart, hstop⟩ := rangeFrom_advance_pos hx htokens hclosing
  have hfirst : opening.token.kind = .lBrace := hopening ▸ hopen
  have hfinal : closing.token.kind = .rBrace := hclosing ▸ hclose
  rw [hopening]
  exact .mk (fun _ => ⟨before, opening, inner, closing, after, level, htokens, hfirst, hfinal, hstart, hstop,
    hlevel, hexact⟩) hsound

theorem blockRule (hx : x.Ordered) (h : r.Steady x) : Steady x x.Sound (blockRule r) := by
  intro pre d s
  have hlevels : Levels x pre d d (fun _ => True) s (Grammar.blockRule r s) :=
    .here (.expect rfl fun _ _ => .bind (.withStructLiterals (statements h.statement _ (d + 1))) fun _ _ =>
      .expect rfl fun _ _ => .finish fun _ =>
        .across (.identified _) (.of_ahead_eq rfl) (.pure fun _ => trivial))
  exact hlevels.strengthen fun n t hrun => block_sound hx h hrun

/-! ### Statements -/

theorem condition (h : r.Steady x) : Steady x x.Sound (condition r) := by
  refine fun _ d s => .kind fun k hk => .ite (fun _ => ?_) fun _ => ?_
  · exact .here (.withStructLiterals fun t => variableDecl h (fun _ => .nil) _ _ _ t)
  refine .check fun b hb => .look .peek fun _ => .ite (fun hparen => ?_) fun _ => ?_
  · rw [Bool.and_eq_true] at hparen
    exact .advance (hb hparen.1) rfl (.here (.bind
      (.withStructLiterals fun t => variableDecl h (fun _ => .nil) _ _ _ t) fun _ _ =>
        .expect rfl fun _ _ => .pure And.right))
  · exact .withStructLiterals (h.expression _ d)

theorem elseBranch (h : r.Steady x) : Steady x (fun branch => x.AllSound branch.toList) (elseBranch r) := by
  refine fun _ d s => .eat rfl fun _ t => .ite (fun _ => ?_) fun _ => .pure fun _ => .nil
  refine .check fun _ _ => .ite (fun _ => ?_) fun _ => ?_
  · exact .bind (h.elseIf _ d t) fun _ _ => .pure fun ⟨_, hbranch⟩ => .single hbranch
  · exact .bind (h.block _ d t) fun _ _ => .pure fun ⟨_, hbranch⟩ => .single hbranch

theorem ifRule (h : r.Steady x) : Steady x x.Sound (ifRule r) :=
  fun _ d _ => .here (.expect rfl fun _ t => .bind (condition h _ d t) fun _ u =>
    .bind (h.block _ d u) fun _ v => .bind (elseBranch h _ d v) fun _ _ =>
      .close fun ⟨⟨⟨_, hcond⟩, hthen⟩, helse⟩ => ⟨rfl, (helse.cons hthen).cons hcond⟩)

theorem whileRule (h : r.Steady x) (hk : s.kind = .kwWhile) :
    Levels x pre d d x.Sound s (whileRule r s) :=
  .here (.advance hk rfl (.bind (condition h _ d _) fun _ t => .bind (h.block _ d t) fun _ _ =>
    .close fun ⟨⟨_, hcond⟩, hbody⟩ => ⟨rfl, .pair hcond hbody⟩))

theorem headerPart (h : r.Steady x) {stop : Kind} (hstop : Kind.level? d [stop] = some d) (s : State) :
    Levels x pre d d (fun part => x.AllSound part.toList) s (headerPart r stop s) :=
  .bind (optionalValue _ h _ d s) fun _ _ => .expect hstop fun _ _ => .pure And.right

theorem headerInit (h : r.Steady x) : Steady x (fun part => x.AllSound part.toList) (headerInit r) := by
  refine fun _ d s => .kind fun _ _ => .ite (fun _ => ?_) fun _ => headerPart h rfl s
  exact .here (.bind (variableDecl h (fun _ => .nil) _ _ _ s) fun _ _ => .expect rfl fun _ _ =>
    .pure fun ⟨_, hdecl⟩ => .single hdecl)

theorem forRule (h : r.Steady x) : Steady x x.Sound (forRule r) :=
  fun _ d _ => .here (.expect rfl fun _ _ => .expect rfl fun _ t => .bind (headerInit h _ d t) fun _ u =>
    .bind (headerPart h rfl u) fun _ v => .bind (headerPart h rfl v) fun _ w =>
      .bind (h.block _ d w) fun _ _ => .close fun ⟨⟨⟨⟨_, hinit⟩, hcond⟩, hstep⟩, hbody⟩ =>
        ⟨rfl, ((hinit.append hcond).append hstep).append (.single hbody)⟩)

theorem expressionStatement (h : r.Steady x) (start : Range) :
    Steady x x.Sound (expressionStatement r start) :=
  fun _ d s => .bind (h.expression _ d s) fun _ _ => .close fun ⟨_, hexpr⟩ => ⟨rfl, .single hexpr⟩

theorem asyncStatement (h : r.Steady x) (hk : s.kind = .kwAsync) :
    Levels x pre d d x.Sound s (asyncStatement r s) := by
  refine .here (.advance hk rfl ?_)
  rw [modify_bind]
  refine .across (.setPendingAsync _ (some s.current.range)) (.of_ahead_eq rfl) ?_
  refine .look .atFunctionDecl fun _ => ?_
  exact .ite (fun _ => declarationAfter h (fun _ => .nil) _ _) fun _ => expressionStatement h _ _ d _

theorem statementBody (h : r.Steady x) : Steady x x.Sound (statementBody r) := by
  refine fun _ d s => .here (.kind fun k hk => ?_)
  split
  case h_9 =>
    exact .look .atFunctionDecl fun _ => .ite (fun _ => declaration h _ d s) fun _ =>
      expressionStatement h _ _ d s
  case h_10 =>
    exact .look .peek fun _ => .ite (fun _ => asyncStatement h hk) fun _ => expressionStatement h _ _ d s
  case h_11 => exact h.block _ d s
  case h_12 => exact ifRule h _ d s
  case h_13 => exact whileRule h hk
  case h_14 => exact forRule h _ d s
  case h_15 =>
    exact .advance hk rfl (.bind (h.statement _ d _) fun _ _ =>
      .close fun ⟨_, hstatement⟩ => ⟨rfl, .single hstatement⟩)
  case h_16 =>
    exact .advance hk rfl (.bind (optionalValue _ h _ d _) fun _ _ => .close fun ⟨_, hvalue⟩ => ⟨rfl, hvalue⟩)
  case h_17 | h_18 => exact .advance hk rfl (.close fun _ => ⟨rfl, .nil⟩)
  case h_19 => exact expressionStatement h _ _ d s
  all_goals exact declaration h _ d s

theorem statementRule (h : r.Steady x) : Steady x x.Sound (statementRule r) :=
  fun _ d s => .bind (statementBody h _ d s) fun _ _ => .eat rfl fun _ _ => .pure And.right

end Steady

/-- At any nesting, what the grammar reads closes the braces it opens and no others. -/
theorem Rules.within_steady (hx : x.Ordered) (n : Nat) : (Rules.within n).Steady x := by
  induction n with
  | zero =>
    exact ⟨.tooDeep, .tooDeep, .tooDeep, .tooDeep, .tooDeep, fun _ => .tooDeep, .tooDeep, .tooDeep⟩
  | succ n ih =>
    exact {
      expression := .nested (.expressionRule ih)
      type := .nested (.typeRule ih)
      statement := .nested (.statementRule ih)
      block := .nested (.blockRule hx ih)
      structMember := .nested (.structMemberRule ih)
      operand := fun limit => .nested (.binary ih limit)
      unary := .nested (.prefixed ih)
      elseIf := .nested (.ifRule ih) }


end BraceLang.Grammar
