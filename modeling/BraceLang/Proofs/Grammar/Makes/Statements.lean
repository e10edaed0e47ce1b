import BraceLang.Proofs.Grammar.Makes.Declarations
import BraceLang.Proofs.Grammar.Termination

/-! What the rules for statements make. A statement that cannot be read is thrown away with the nodes made
    for it, and the error is reported. -/

namespace BraceLang.Grammar

variable {r : Rules} {s t u o : State} {slot : Slot}

/-! ### Statements in a row -/

/-- A failed statement and what is skipped after it are passed over, with a report. -/
theorem Passes.failed {p : Parser Node} {err : ParseError} {inBlock : Bool}
    (hmoves : ∀ depth, Agrees depth p p) (hrun : p s = .error err u)
    (hsync : synchronize s.remaining inBlock { u with log := u.log.push err.toDiagnostic } = .ok () t) :
    Passes s t := by
  have hfailed := (hmoves s.depth).moves_error hrun
  have hsynced : Moves _ t := Agrees.moves (Agrees.synchronize s.remaining inBlock) hsync
  refine .of_complaint ((hfailed.trans (.report u err)).trans hsynced) ?_
  have hreported := hsynced.complaints_le
  rw [State.complaints_report] at hreported
  exact Nat.lt_of_lt_of_le (Nat.lt_succ_of_le hfailed.complaints_le) hreported

theorem statementStep_gives {p : Parser Node} (hp : Fills slot p) (hmoves : ∀ depth, Agrees depth p p)
    (inBlock : Bool) (items : Array Node) (s : State) :
    Gives o (each slot items.toList) (fun step => each slot step.value.toList) (fun _ => True) s
      (statementStep p inBlock items s) := by
  intro hkept step t hok
  rcases statementStep_cases hok with ⟨rfl, rfl, -⟩ | ⟨item, hrun, rfl⟩ | ⟨err, u, hrun, -, -, hsync, rfl⟩
  · exact ⟨hkept, trivial⟩
  · obtain ⟨hitem, -⟩ := hp s (.refl s) item t hrun
    simp only [ForInStep.value, Array.toList_push, each_append, each_cons, each_nil]
    exact ⟨hkept.append hitem, trivial⟩
  · exact ⟨hkept.after (.failed hmoves hrun hsync), trivial⟩

theorem Produces.statements {p : Parser Node} (hp : Fills slot p) (hmoves : ∀ depth, Agrees depth p p)
    (inBlock : Bool) : Produces (each slot) (fun _ => True) (statements p inBlock) := by
  intro s
  have hitems : Gives s [] (fun items : Array Node => each slot items.toList) (fun _ => True) s
      (repeating #[] (statementStep p inBlock) s) :=
    .repeating trivial rfl fun items t _ => statementStep_gives hp hmoves inBlock items t
  exact .bind hitems fun _ _ _ => .pure trivial rfl

theorem Fills.blockRule (h : r.Produce) : Fills .block (blockRule r) :=
  fun _ => .here (.expect fun _ _ =>
    .bind (.withStructLiterals fun _ => (Produces.statements h.statement h.moves true).gives) fun _ _ _ =>
      .expect fun _ _ => .close trivial rfl rfl rfl)

/-! ### Conditions and loops -/

theorem condition_of_value {shape : Shape Node} (h : Slot.value.holds shape = true) :
    Slot.condition.holds shape = true := by
  cases shape <;> first | rfl | cases h

theorem initial_of_value {shape : Shape Node} (h : Slot.value.holds shape = true) :
    Slot.initial.holds shape = true := by
  cases shape <;> first | rfl | cases h

theorem branch_of_block {shape : Shape Node} (h : Slot.block.holds shape = true) :
    Slot.branch.holds shape = true := by
  cases shape <;> first | rfl | cases h

theorem statement_of_block {shape : Shape Node} (h : Slot.block.holds shape = true) :
    Slot.statement.holds shape = true := by
  cases shape <;> first | rfl | cases h

theorem statement_of_declaration {shape : Shape Node} (h : shape.isDeclaration = true) :
    Slot.statement.holds shape = true := by
  cases shape <;> first | rfl | cases h

theorem conditionVariable_gives (h : r.Produce) (mods : Modifiers) (start : Range) (s : State) :
    Gives o [] (fun n => [(.condition, n)]) (fun _ => True) s (variableDecl r [] mods start true s) :=
  variableDecl_gives h [] mods start true s fun _ _ _ _ hinit => hinit rfl

theorem Fills.condition (h : r.Produce) : Fills .condition (condition r) := by
  refine fun s => .kind fun _ _ => .ite (fun _ => ?_) fun _ => .check fun _ _ => .look .peek fun _ => ?_
  · exact .here (.withStructLiterals (conditionVariable_gives h _ _))
  refine .ite (fun _ => ?_) fun _ => ?_
  · exact .advance (.here (.bind (.withStructLiterals (conditionVariable_gives h _ _)) fun _ _ _ =>
      .expect fun _ _ => .pure trivial rfl))
  · exact .withStructLiterals fun _ => (h.expression.recast fun _ => condition_of_value).gives

theorem Produces.elseBranch (h : r.Produce) :
    Produces (fun branch => each Slot.branch branch.toList) (fun _ => True) (elseBranch r) := by
  refine fun s => .eat fun _ _ _ => .ite (fun _ => .check fun _ _ => ?_) fun _ => .pure trivial rfl
  refine .ite (fun _ => .rule h.elseIf fun _ _ _ => .pure trivial rfl) fun _ => ?_
  exact .rule (h.block.recast fun _ => branch_of_block) fun _ _ _ => .pure trivial rfl

theorem Fills.ifRule (h : r.Produce) (hslot : ∀ c t e, slot.holds (.ifElse c t e : Shape Node) = true) :
    Fills slot (ifRule r) :=
  fun _ => .here (.expect fun _ _ => .rule (condition h) fun _ _ _ => .rule h.block fun _ _ _ =>
    .rule (.elseBranch h) fun _ _ _ => .close trivial rfl rfl (hslot _ _ _))

theorem Fills.whileRule (h : r.Produce) : Fills .statement (whileRule r) :=
  fun _ => .here (.advance (.rule (condition h) fun _ _ _ => .rule h.block fun _ _ _ =>
    .close trivial rfl rfl rfl))

theorem Produces.headerPart (h : r.Produce) (stop : Kind) :
    Produces (fun part => each Slot.value part.toList) (fun _ => True) (headerPart r stop) :=
  fun _ => .rule (.optionalValue _ h) fun _ _ _ => .expect fun _ _ => .pure trivial rfl

/-- A header starts with a variable or with a value, either of which may stand there. -/
theorem Produces.headerInit (h : r.Produce) :
    Produces (fun part => each Slot.initial part.toList) (fun _ => True) (headerInit r) := by
  refine fun s => .kind fun _ _ => .ite (fun _ => .here ?_) fun _ => ?_
  · exact .bind (variableDecl_gives h [] _ _ false s fun _ _ _ _ _ => rfl) fun _ _ _ =>
      .expect fun _ _ => .pure trivial rfl
  · intro hkept part t hok
    obtain ⟨hpart, -⟩ := headerPart h .semi s hkept part t hok
    refine ⟨⟨by simpa using hpart.makes, fun p hp => ?_⟩, trivial⟩
    obtain ⟨hslot, hmem⟩ := mem_each.mp hp
    rw [hslot]
    exact initial_of_value (hpart.holds (.value, p.2) (mem_each.mpr ⟨rfl, hmem⟩))

theorem Fills.forRule (h : r.Produce) : Fills .statement (forRule r) :=
  fun _ => .here (.expect fun _ _ => .expect fun _ _ => .rule (.headerInit h) fun _ _ _ =>
    .rule (.headerPart h _) fun _ _ _ => .rule (.headerPart h _) fun _ _ _ => .rule h.block fun _ _ _ =>
      .close trivial rfl rfl rfl)

/-! ### Statements -/

theorem Fills.expressionStatement (h : r.Produce) (start : Range) :
    Fills .statement (expressionStatement r start) :=
  fun _ => .rule h.expression fun _ _ _ => .close trivial rfl rfl rfl

theorem Fills.asyncStatement (h : r.Produce) : Fills .statement (asyncStatement r) := by
  refine fun s => .here (.advance ?_)
  rw [modify_bind]
  refine .across (.setPendingAsync _ (some s.current.range)) (.look .atFunctionDecl fun _ => ?_)
  refine .ite (fun _ => ?_) fun _ => (expressionStatement h _).gives
  exact declarationAfter_gives (fun _ => statement_of_declaration) h [] _ _

/-- The parts of a jump are made behind its keyword. -/
theorem Kept.jump {shape : Shape Node} (h : Kept o.advance shape.slots s) (hk : o.kind.isJump = true)
    (hlawful : shape.Lawful) (hjump : shape.isJump = true) (hslot : slot.holds shape = true) :
    Kept o [(slot, ⟨s.nextId, s.rangeFrom o.current.range, none, shape⟩)] s.identified where
  makes := .jump hk h.parts (h.wellFormed hlawful) hjump
  holds := by
    intro p hp
    obtain rfl := List.mem_singleton.mp hp
    exact hslot

theorem returned_gives (h : r.Produce) (hk : s.kind = .kwReturn) :
    Gives s [] (fun n => [(.statement, n)]) (fun _ => True) s
      ((advance >>= fun _ => optionalValue endsReturn r >>= fun value =>
        close s.current.range (.returned value)) s) := by
  intro _ n t hok
  rw [advance_bind] at hok
  obtain ⟨value, u, hvalue, hok⟩ := bind_eq_ok.mp hok
  obtain ⟨rfl, rfl⟩ := close_eq_ok.mp hok
  obtain ⟨hparts, -⟩ := Produces.optionalValue endsReturn h s.advance (.refl _) value u hvalue
  exact ⟨hparts.jump (hk ▸ rfl) trivial rfl rfl, trivial⟩

/-- A jump that carries no value. -/
theorem bareJump_gives {shape : Shape Node} (hk : s.kind.isJump = true) (hlawful : shape.Lawful)
    (hslots : shape.slots = []) (hjump : shape.isJump = true) (hslot : Slot.statement.holds shape = true) :
    Gives s [] (fun n => [(.statement, n)]) (fun _ => True) s
      ((advance >>= fun _ => close s.current.range shape) s) := by
  intro _ n t hok
  rw [advance_bind] at hok
  obtain ⟨rfl, rfl⟩ := close_eq_ok.mp hok
  have hparts : Kept s.advance shape.slots s.advance := hslots ▸ .refl _
  exact ⟨hparts.jump hk hlawful hjump hslot, trivial⟩

theorem Fills.statementBody (h : r.Produce) : Fills .statement (statementBody r) := by
  refine fun s => .here (.kind fun k hk => ?_)
  split
  case h_9 =>
    exact .look .atFunctionDecl fun _ => .ite
      (fun _ => declaration (fun _ => statement_of_declaration) h s) fun _ => expressionStatement h _ s
  case h_10 =>
    exact .look .peek fun _ => .ite (fun _ => asyncStatement h s) fun _ => expressionStatement h _ s
  case h_11 => exact (h.block.recast fun _ => statement_of_block) s
  case h_12 => exact ifRule h (fun _ _ _ => rfl) s
  case h_13 => exact whileRule h s
  case h_14 => exact forRule h s
  case h_15 => exact .advance (.rule h.statement fun _ _ _ => .close trivial rfl rfl rfl)
  case h_16 => exact returned_gives h hk
  case h_17 | h_18 => exact bareJump_gives (hk ▸ rfl) trivial rfl rfl rfl
  case h_19 => exact expressionStatement h _ s
  all_goals exact declaration (fun _ => statement_of_declaration) h s

theorem Fills.statementRule (h : r.Produce) : Fills .statement (statementRule r) :=
  fun _ => .rule (statementBody h) fun _ _ _ => .eat fun _ _ _ => .pure trivial rfl

/-- At any nesting, the rules make what they give. -/
theorem Rules.within_produce (n : Nat) : (Rules.within n).Produce := by
  induction n with
  | zero =>
    exact {
      expression := .tooDeep
      type := .tooDeep
      statement := .tooDeep
      block := .tooDeep
      structMember := .tooDeep
      operand := fun _ => .tooDeep
      unary := .tooDeep
      elseIf := .tooDeep
      moves := fun depth => (Rules.within_agree 0 depth).statement }
  | succ n ih =>
    exact {
      expression := (Fills.expressionRule ih).nested
      type := (Fills.typeRule ih).nested
      statement := (Fills.statementRule ih).nested
      block := (Fills.blockRule ih).nested
      structMember := (Fills.structMemberRule ih).nested
      operand := fun limit => (Fills.binary ih limit).nested
      unary := (Fills.prefixed ih).nested
      elseIf := (Fills.ifRule ih fun _ _ _ => rfl).nested
      moves := fun depth => (Rules.within_agree (n + 1) depth).statement }

/-- The items of a program are statements that are made from the start of the text to its end. -/
theorem parse_kept (source : Source) :
    ∃ t, Kept (State.start (TokenStream.ofSource source)) (each Slot.statement (parse source).1.items) t ∧
      (parse source).1.nodeCount = t.nextId ∧ (parse source).2 = t.log := by
  obtain ⟨items, t, hrun, -⟩ := statements_reach_end (Rules.within_read nestingLimit)
    (State.start (TokenStream.ofSource source))
  have hrules := Rules.within_produce nestingLimit
  obtain ⟨hkept, -⟩ := Produces.statements hrules.statement hrules.moves false _ (.refl _) items t hrun
  rw [parse_eq hrun]
  exact ⟨t, hkept, rfl, rfl⟩

/-- What follows from the making of a node for all nodes made before follows for every node of a
    program. -/
theorem parse_makes (source : Source) :
    ∃ t, Makes (State.start (TokenStream.ofSource source)) (parse source).1.items t ∧
      (parse source).1.nodeCount = t.nextId ∧ (parse source).2 = t.log := by
  obtain ⟨t, hkept, hcount, hlog⟩ := parse_kept source
  have hmakes := hkept.makes
  rw [map_snd_each] at hmakes
  exact ⟨t, hmakes, hcount, hlog⟩

end BraceLang.Grammar
