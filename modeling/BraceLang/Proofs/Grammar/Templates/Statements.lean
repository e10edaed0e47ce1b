import BraceLang.Proofs.Grammar.Templates.Declarations
import BraceLang.Proofs.Grammar.Spans.Statements
import BraceLang.Proofs.Grammar.Termination

/-! Templates in statements and blocks. Tokens are skipped only after a statement that failed, and that is reported,
    so nothing has to be known of the templates among them. -/

namespace BraceLang.Grammar

variable {x : HollowText} {r : Rules} {pre : Prop} {s t u : State}

/-! ### Statements in a row -/

namespace Sparing

/-- A statement that fails is reported, so nothing has to be known of what is skipped after it. -/
theorem statementStep {p : Parser Node} (hp : Sparing x x.Sound p) (inBlock : Bool) (items : Array Node) (s : State) :
    Spares x (x.AllSound items.toList) (fun step => x.AllSound step.value.toList) s
      (statementStep p inBlock items s) := by
  obtain ⟨step, t, hrun⟩ := Safe.statementStep p inBlock items s
  have hread := hp (x.AllSound items.toList) s
  rw [hrun]
  rcases statementStep_cases hrun with ⟨rfl, rfl, -⟩ | ⟨item, hitem, rfl⟩ | ⟨err, u, herr, -, -, hsync, rfl⟩
  · exact .pure id
  · rw [hitem] at hread
    exact hread.after (.pure fun ⟨hitems, hsound⟩ => hitems.push hsound)
  · intro hs
    rw [herr] at hread
    have hsynced : Moves _ t := Agrees.moves (Agrees.synchronize s.remaining inBlock) hsync
    refine ⟨((hread hs).1.trans (.report u err)).trans hsynced, fun _ _ hquiet => ?_⟩
    have hcomplaints := hsynced.complaints_le
    rw [State.complaints_report, show t.complaints = 0 from hquiet] at hcomplaints
    exact absurd hcomplaints (Nat.not_succ_le_zero _)

theorem statements {p : Parser Node} (hp : Sparing x x.Sound p) (inBlock : Bool) :
    Sparing x x.AllSound (statements p inBlock) :=
  fun _ _ => .bind (.repeating (fun _ => .nil) fun items t => statementStep hp inBlock items t) fun _ _ =>
    .pure And.right

theorem blockRule (h : r.Spare x) : Sparing x x.Sound (blockRule r) :=
  fun _ _ => .here (.expect rfl fun _ _ => .bind (.withStructLiterals (statements h.statement true _ _)) fun _ _ =>
    .expect rfl fun _ _ => .close fun ⟨_, hbody⟩ => ⟨rfl, hbody⟩)

/-! ### Statements -/

theorem condition (h : r.Spare x) : Sparing x x.Sound (condition r) := by
  refine fun _ s => .kind fun k hk => .ite (fun _ => ?_) fun _ => ?_
  · exact .here (.withStructLiterals (variableDecl h (fun _ => .nil) _ _ _ _))
  refine .check fun b hb => .look .peek fun _ => .ite (fun hparen => ?_) fun _ => ?_
  · rw [Bool.and_eq_true] at hparen
    exact .advance (hb hparen.1) rfl (.here (.bind
      (.withStructLiterals (variableDecl h (fun _ => .nil) _ _ _ _)) fun _ _ =>
        .expect rfl fun _ _ => .pure And.right))
  · exact .withStructLiterals (h.value _ _)

theorem elseBranch (h : r.Spare x) : Sparing x (fun branch => x.AllSound branch.toList) (elseBranch r) := by
  refine fun _ s => .eat rfl fun _ t => .ite (fun _ => ?_) fun _ => .pure fun _ => .nil
  refine .check fun _ _ => .ite (fun _ => ?_) fun _ => ?_
  · exact .bind (h.elseIf _ t) fun _ _ => .pure fun ⟨_, hbranch⟩ => .single hbranch
  · exact .bind (h.block _ t) fun _ _ => .pure fun ⟨_, hbranch⟩ => .single hbranch

theorem ifRule (h : r.Spare x) : Sparing x x.Sound (ifRule r) :=
  fun _ _ => .here (.expect rfl fun _ t => .bind (condition h _ t) fun _ u =>
    .bind (h.block _ u) fun _ v => .bind (elseBranch h _ v) fun _ _ =>
      .close fun ⟨⟨⟨_, hcond⟩, hthen⟩, helse⟩ => ⟨rfl, (helse.cons hthen).cons hcond⟩)

theorem whileRule (h : r.Spare x) (hk : s.kind = .kwWhile) :
    Spares x pre x.Sound s (whileRule r s) :=
  .here (.advance hk rfl (.bind (condition h _ _) fun _ t => .bind (h.block _ t) fun _ _ =>
    .close fun ⟨⟨_, hcond⟩, hbody⟩ => ⟨rfl, .pair hcond hbody⟩))

theorem headerPart (h : r.Spare x) {stop : Kind} (hstop : stop.isTemplate = false) (s : State) :
    Spares x pre (fun part => x.AllSound part.toList) s (headerPart r stop s) :=
  .bind (optionalValue _ h _ s) fun _ _ => .expect hstop fun _ _ => .pure And.right

theorem headerInit (h : r.Spare x) : Sparing x (fun part => x.AllSound part.toList) (headerInit r) := by
  refine fun _ s => .kind fun _ _ => .ite (fun _ => ?_) fun _ => headerPart h rfl s
  exact .here (.bind (variableDecl h (fun _ => .nil) _ _ _ s) fun _ _ => .expect rfl fun _ _ =>
    .pure fun ⟨_, hdecl⟩ => .single hdecl)

theorem forRule (h : r.Spare x) : Sparing x x.Sound (forRule r) :=
  fun _ _ => .here (.expect rfl fun _ _ => .expect rfl fun _ t => .bind (headerInit h _ t) fun _ u =>
    .bind (headerPart h rfl u) fun _ v => .bind (headerPart h rfl v) fun _ w =>
      .bind (h.block _ w) fun _ _ => .close fun ⟨⟨⟨⟨_, hinit⟩, hcond⟩, hstep⟩, hbody⟩ =>
        ⟨rfl, ((hinit.append hcond).append hstep).append (.single hbody)⟩)

theorem expressionStatement (h : r.Spare x) (start : Range) : Leading x (expressionStatement r start) :=
  fun _ s => .bind (h.expression _ s) fun _ _ => .close fun ⟨_, hexpr⟩ => ⟨rfl, .single hexpr⟩

/-- The `async` waits only for the `func` right behind it. -/
theorem asyncStatement (h : r.Spare x) (hk : s.kind = .kwAsync) (hfunc : s.peek 1 = .kwFunc) :
    Spares x pre x.Sound s (asyncStatement r s) := by
  have hkind : s.pending.kind = .kwFunc := s.kind_advance.trans hfunc
  have waiting : SparesFrom x (s.pending.pendingAsync = none ∨ s.pending.kind = .kwFunc) pre x.Sound s.pending
      ((atFunctionDecl >>= fun declares => if declares then Grammar.declarationAfter r [] s.current.range
        else Grammar.expressionStatement r s.current.range) s.pending) := by
    refine .look .atFunctionDecl fun _ => .ite (fun _ => ?_) fun _ => expressionStatement h _ _ _
    rw [declarationAfter_of_func hkind]
    exact functionDecl h (fun _ => .nil) _ _ _
  have moves : Moves s.advance s.pending := .setPendingAsync s.advance _
  exact .here (.advance hk rfl (waiting.across moves (fun _ => .inr hkind) (.of_ahead_eq rfl)))

theorem statementBody (h : r.Spare x) : Sparing x x.Sound (statementBody r) := by
  refine fun _ s => .here (.kind fun k hk => ?_)
  split
  case h_9 =>
    exact .look .atFunctionDecl fun _ => .ite (fun _ => declaration h _ s) fun _ =>
      (expressionStatement h _).sparing _ s
  case h_10 =>
    rw [peek_bind]
    exact .ite (fun hfunc => asyncStatement h hk (beq_iff_eq.mp hfunc)) fun _ =>
      (expressionStatement h _).sparing _ s
  case h_11 => exact h.block _ s
  case h_12 => exact ifRule h _ s
  case h_13 => exact whileRule h hk
  case h_14 => exact forRule h _ s
  case h_15 =>
    exact .advance hk rfl (.bind (h.statement _ _) fun _ _ =>
      .close fun ⟨_, hstatement⟩ => ⟨rfl, .single hstatement⟩)
  case h_16 =>
    exact .advance hk rfl (.bind (optionalValue _ h _ _) fun _ _ => .close fun ⟨_, hvalue⟩ => ⟨rfl, hvalue⟩)
  case h_17 | h_18 => exact .advance hk rfl (.close fun _ => ⟨rfl, .nil⟩)
  case h_19 => exact (expressionStatement h _).sparing _ s
  all_goals exact declaration h _ s

theorem statementRule (h : r.Spare x) : Sparing x x.Sound (statementRule r) :=
  fun _ s => .bind (statementBody h _ s) fun _ _ => .eat rfl fun _ _ => .pure And.right

end Sparing

/-- At any nesting, the rules take templates whole. -/
theorem Rules.within_spare (x : HollowText) (n : Nat) : (Rules.within n).Spare x := by
  induction n with
  | zero =>
    exact {
      expression := .tooDeep
      type := .tooDeep
      statement := .tooDeep
      block := .tooDeep
      structMember := .tooDeep
      operand := fun _ => .tooDeep
      unary := .tooDeep
      elseIf := .tooDeep
      moves := Rules.within_agree 0
      reads := Rules.within_read 0
      settles := Rules.within_settle x.source 0 }
  | succ n ih =>
    exact {
      expression := (Sparing.expressionRule ih).nested
      type := (Sparing.typeRule ih).nested
      statement := (Sparing.statementRule ih).nested
      block := (Sparing.blockRule ih).nested
      structMember := (Sparing.structMemberRule ih).nested
      operand := fun limit => (Sparing.binary ih limit).sparing.nested
      unary := (Sparing.prefixed ih).sparing.nested
      elseIf := (Sparing.ifRule ih).nested
      moves := Rules.within_agree (n + 1)
      reads := Rules.within_read (n + 1)
      settles := Rules.within_settle x.source (n + 1) }

end BraceLang.Grammar
