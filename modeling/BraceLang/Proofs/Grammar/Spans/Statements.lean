import BraceLang.Proofs.Grammar.Spans.Declarations
import BraceLang.Proofs.Grammar.Termination

/-! Where statements lie. A statement that cannot be read leaves nothing behind, and no `async` is left over
    from it when reading goes on. -/

namespace BraceLang.Grammar

variable {r : Rules} {source : Nat} {s t u o : State}

/-! ### Statements in a row -/

theorem synchronize_pendingAsync {mark : Nat} {inBlock : Bool} (hok : synchronize mark inBlock s = .ok () t) :
    t.pendingAsync = none := by
  have hidle := synchronize_idle mark inBlock s
  rwa [hok] at hidle

/-- Statements that have been read since a place, whatever lies between them. -/
structure Scattered (source : Nat) (o : State) (items : List Node) (s : State) : Prop where
  ordered : Ordered source o.ahead
  idle : s.pendingAsync = none
  placed : ∃ taken, o.ahead = taken ++ s.ahead ∧ (Hand.nodes items).Placed source none taken

namespace Scattered
variable {items : List Node} {item : Node}

theorem ordered_here (h : Scattered source o items s) : Ordered source s.ahead := by
  obtain ⟨taken, hahead, -⟩ := h.placed
  exact (hahead ▸ h.ordered).right

theorem append (h : Scattered source o items s) (hitem : Held source s (.node item) t) :
    Scattered source o (items ++ [item]) t := by
  obtain ⟨taken, hahead, hplaced⟩ := h.placed
  obtain ⟨more, hmore, -, hplaced'⟩ := hitem.placed
  rw [h.idle] at hplaced'
  have hall : o.ahead = taken ++ more ++ t.ahead := by rw [hahead, hmore, List.append_assoc]
  have hordered : Ordered source (taken ++ more) := (hall ▸ h.ordered).left
  exact ⟨h.ordered, hitem.idle, taken ++ more, hall, (hplaced.append hordered hplaced').covers (.forget rfl)⟩

theorem moves (h : Scattered source o items s) (hmoves : Moves s t) (ht : t.pendingAsync = none) :
    Scattered source o items t := by
  obtain ⟨taken, hahead, hplaced⟩ := h.placed
  obtain ⟨more, hmore⟩ := hmoves.ahead
  refine ⟨h.ordered, ht, taken ++ more, ?_, hplaced.mono (List.subset_append_left taken more)⟩
  rw [hahead, ← hmore, List.append_assoc]

theorem step {p : Parser Node} {inBlock : Bool} (hp : Settles source Hand.node p)
    (hmoves : ∀ depth, Agrees depth p p) {items : Array Node} {next : ForInStep (Array Node)}
    (h : Scattered source o items.toList s)
    (hok : statementStep p inBlock items s = .ok next t) : Scattered source o next.value.toList t := by
  rcases statementStep_cases hok with ⟨rfl, rfl, -⟩ | ⟨item, hrun, rfl⟩ | ⟨err, u, hrun, -, -, hsync, rfl⟩
  · exact h
  · have hitem := hp s h.idle (.refl h.ordered_here h.idle) item t hrun
    have hitems := h.append hitem
    rwa [← Array.toList_push] at hitems
  · have hfailed := (hmoves s.depth).moves_error hrun
    have hsynced : Moves _ t := Agrees.moves (Agrees.synchronize s.remaining inBlock) hsync
    exact h.moves ((hfailed.trans (.report u err)).trans hsynced) (synchronize_pendingAsync hsync)

end Scattered

theorem statements_scattered {p : Parser Node} {inBlock : Bool} (hp : Settles source Hand.node p)
    (hmoves : ∀ depth, Agrees depth p p) {items : List Node} (hok : statements p inBlock s = .ok items t)
    (hs : Ordered source s.ahead) (hidle : s.pendingAsync = none) : Scattered source s items t := by
  obtain ⟨found, u, hfound, hok⟩ := bind_eq_ok.mp hok
  obtain ⟨rfl, rfl⟩ := pure_eq_ok.mp hok
  have hstart : Scattered source s [] s := ⟨hs, hidle, [], rfl, Hand.Placed.empty⟩
  exact repeating_invariant (I := fun items t => Scattered source s items.toList t)
    (fun _ _ _ _ h hok => h.step hp hmoves hok) hstart hfound

/-- The token that closes a block follows the statements in it. -/
theorem Held.scattered {hand : Hand} {items : List Node} (h : Held source o hand s)
    (hitems : Scattered source s items t) (hk : t.kind ≠ .eof) :
    Held source o (hand.withNodes items).begin t.advance := by
  obtain ⟨taken, hahead, -, hplaced⟩ := h.placed
  obtain ⟨inner, hinner, hplaced'⟩ := hitems.placed
  obtain ⟨lexed, rest, hlexed, hcurrent⟩ := State.ahead_of_kind_ne hk
  have hordered : Ordered source (taken ++ inner) := by
    have hall : o.ahead = taken ++ inner ++ t.ahead := by rw [hahead, hinner, List.append_assoc]
    exact (hall ▸ h.ordered).left
  have hall := (hplaced.append hordered hplaced').mono (List.subset_append_left (taken ++ inner) [lexed])
  have hitems' : (hand.withNodes items).Placed source o.pendingAsync (taken ++ inner ++ [lexed]) := hall.covers
    ⟨fun hbegun => (Bool.or_false _).trans hbegun, (List.append_nil _).symm, rfl⟩
  refine ⟨h.ordered, hitems.idle, taken ++ inner ++ [lexed], ?_, ?_, fun _ => ?_, hitems'.names, hitems'.fits,
    hitems'.parts, hitems'.row⟩
  · show o.ahead = taken ++ inner ++ [lexed] ++ t.ahead.tail
    rw [hahead, hinner, hlexed]
    simp
  · show some t.current.range = _
    rw [List.getLast?_concat, hcurrent]
    rfl
  · exact List.append_ne_nil_of_right_ne_nil _ (List.cons_ne_nil _ _)

theorem Settles.blockRule (h : r.Settle source) : Settles source Hand.node (blockRule r) := by
  intro s hs hheld n t hok
  rw [Grammar.blockRule, here_bind] at hok
  simp only [bind_eq_ok, expect_eq_ok, withStructLiterals_eq_ok] at hok
  obtain ⟨_, _, ⟨hopen, -, rfl⟩, body, _, ⟨u, hbody, rfl⟩, _, _, ⟨hclose, -, rfl⟩, hok⟩ := hok
  have hbegun := hheld.mark (hopen ▸ Kind.noConfusion)
  have hitems := statements_scattered h.statement h.moves hbody hbegun.ordered_here hs
  have hinside : Scattered source s.advance body { u with structLiterals := s.advance.structLiterals } :=
    ⟨hitems.ordered, hitems.idle, hitems.placed⟩
  have hall := hbegun.scattered hinside (hclose ▸ Kind.noConfusion)
  exact Leaves.close rfl (.inl hs) (.refl _) hall n t hok

/-! ### Conditions and loops -/

theorem Settles.condition (h : r.Settle source) : Settles source Hand.node (condition r) := by
  have hdecl (allowed : Bool) (mods : Modifiers) (s : State) (hs : s.pendingAsync = none) :
      Leaves source s .empty Hand.node s
        (withStructLiterals allowed (variableDecl r [] mods s.current.range true) s) :=
    .withStructLiterals fun t => variableDecl_leaves h hs [] mods true t
  refine fun s hs => .kind fun _ _ => .ite (fun _ => .here (hdecl _ _ s hs)) fun _ => ?_
  refine .check fun b hb => .look .peek fun _ => .ite (fun hgo => ?_) fun _ => ?_
  · rw [Bool.and_eq_true, hb] at hgo
    refine .advance (hgo.1 ▸ Kind.noConfusion) (.here (.partFrom (hdecl _ _ _) fun _ _ => ?_))
    exact .expect rfl fun _ _ => .pure (.refl _)
  · exact .withStructLiterals fun _ => h.value.leaves

theorem Settles.elseBranch (h : r.Settle source) :
    Settles source (fun branch => .nodes branch.toList) (elseBranch r) := by
  refine fun s _ => .eat rfl (fun _ => .check fun _ _ => .ite (fun _ => ?_) fun _ => ?_) fun _ => .pure (.refl _)
  · exact .part h.elseIf fun _ _ => .pure (.forget rfl)
  · exact .part h.block fun _ _ => .pure (.forget rfl)

theorem Settles.ifRule (h : r.Settle source) : Settles source Hand.node (ifRule r) :=
  fun _ hs => .here (.expect rfl fun _ _ => .part (condition h) fun _ _ => .part h.block fun _ _ =>
    .parts (elseBranch h) fun _ _ => .close rfl (.inl hs) (.refl _))

theorem whileRule_leaves (h : r.Settle source) (hs : s.pendingAsync = none) (hk : s.kind = .kwWhile) :
    Leaves source s .empty Hand.node s (whileRule r s) :=
  .here (.advance (hk ▸ Kind.noConfusion) (.part (.condition h) fun _ _ => .part h.block fun _ _ =>
    .close rfl (.inl hs) (.refl _)))

theorem Settles.headerPart (h : r.Settle source) {stop : Kind} (hstop : (stop == .eof) = false) :
    Settles source (fun part => .nodes part.toList) (headerPart r stop) :=
  fun s hs => .bind (optionalValue _ h s hs) fun _ _ => .expect hstop fun _ _ => .pure (.forget rfl)

theorem Settles.headerInit (h : r.Settle source) :
    Settles source (fun part => .nodes part.toList) (headerInit r) := by
  refine fun s hs => .kind fun _ _ => .ite (fun _ => .here ?_) fun _ => headerPart h rfl s hs
  exact .bind (variableDecl_leaves h hs [] _ false s) fun _ _ => .expect rfl fun _ _ => .pure (.forget rfl)

theorem Settles.forRule (h : r.Settle source) : Settles source Hand.node (forRule r) :=
  fun _ hs => .here (.expect rfl fun _ _ => .expect rfl fun _ _ => .parts (headerInit h) fun _ _ =>
    .parts (headerPart h rfl) fun _ _ => .parts (headerPart h rfl) fun _ _ => .part h.block fun _ _ =>
      .close rfl (.inl hs) (.refl _))

/-! ### Statements -/

theorem expressionStatement_leaves (h : r.Settle source) (hs : s.pendingAsync = none) :
    Leaves source s .empty Hand.node s (expressionStatement r s.current.range s) :=
  .part h.value fun _ _ => .close rfl (.inl hs) (.refl _)

/-- A function without attributes or markers before it. -/
theorem declarationAfter_of_func {attrs : List Node} {start : Range} (hk : s.kind = .kwFunc) :
    declarationAfter r attrs start s = functionDecl r attrs Modifiers.none start s := by
  have hstep : modifierStep Modifiers.none s = .ok (.done Modifiers.none) s := by
    rw [modifierStep, kind_bind, hk]
    rfl
  have hmodifiers : modifiers s = .ok Modifiers.none s := repeatFrom_of_done hstep
  rw [declarationAfter, bind_of_ok hmodifiers, kind_bind, hk]

/-- A function whose `async` was taken before starts there. -/
theorem declarationAfter_of_pending {attrs : List Node} {start range : Range} (hk : s.kind = .kwFunc)
    (hs : s.pendingAsync = some range) : declarationAfter r attrs start s =
      functionFrom r attrs Modifiers.none start true { s with pendingAsync := none } :=
  (declarationAfter_of_func hk).trans (functionDecl_of_pending hs)

/-- The place after an `async` of which it is not known yet whose it is. -/
def State.pending (s : State) : State := { s.advance with pendingAsync := some s.current.range }

/-- What is read after an `async` belongs to the statement that starts there. -/
theorem Held.absorb {n : Node} (hk : s.kind ≠ .eof) (hordered : Ordered source s.ahead)
    (h : Held source s.pending (.node n) t) : Held source s (.node n) t := by
  obtain ⟨lexed, rest, hahead, hcurrent⟩ := State.ahead_of_kind_ne hk
  obtain ⟨taken, htaken, hlast, hplaced⟩ := h.placed
  have hsubset : taken ⊆ lexed :: taken := List.subset_cons_self lexed taken
  refine ⟨hordered, h.idle, lexed :: taken, ?_, ?_, fun _ => List.cons_ne_nil _ _, List.forall_mem_nil _,
    hplaced.fits, List.forall_mem_singleton.mpr (.inl ?_), hplaced.row⟩
  · replace htaken : s.ahead.tail = taken ++ t.ahead := htaken
    rw [hahead, List.tail_cons] at htaken
    rw [hahead, htaken]
    rfl
  · have hasync : s.pending.lastRange = some lexed.token.range := by
      rw [← hcurrent]
      rfl
    rw [hlast, hasync, List.getLast?_cons]
    cases taken.getLast? <;> rfl
  · rcases hplaced.parts n (List.mem_singleton_self n) with hinside | ⟨-, hearly⟩
    · exact hinside.mono hsubset
    · obtain ⟨range, hrange, hstart⟩ := hearly.starts
      cases hrange
      rw [hcurrent] at hstart
      exact ⟨hearly.source_eq, ⟨lexed, List.mem_cons_self, hstart⟩, (hearly.mono hsubset).stops⟩

theorem asyncStatement_leaves (h : r.Settle source) (hs : s.pendingAsync = none) (hk : s.kind = .kwAsync)
    (hfunc : s.peek 1 = .kwFunc) : Leaves source s .empty Hand.node s (asyncStatement r s) := by
  intro hheld n t hok
  have hne : s.kind ≠ .eof := hk ▸ Kind.noConfusion
  have hbegun := hheld.mark hne
  have hkind : s.pending.kind = .kwFunc := s.kind_advance.trans hfunc
  simp only [asyncStatement, here_bind, advance_bind, modify_bind, bind_eq_ok] at hok
  obtain ⟨b, u, hb, hok⟩ := hok
  obtain rfl := atFunctionDecl_eq_ok hb
  rcases ite_eq_ok.mp hok with ⟨-, hok⟩ | ⟨-, hok⟩
  · replace hok : declarationAfter r [] s.current.range s.pending = .ok n t := hok
    rw [declarationAfter_of_pending hkind rfl] at hok
    have hstart : Held source s (.nodes []) { s.pending with pendingAsync := none } :=
      Held.covers ⟨hbegun.ordered, rfl, hbegun.placed⟩ (.forget rfl)
    exact functionFrom_leaves h hs [] Modifiers.none true _ hstart n t hok
  · obtain ⟨e, v, he, hok⟩ := bind_eq_ok.mp hok
    obtain ⟨lexed, rest, hahead, hcurrent⟩ := State.ahead_of_kind_ne hne
    have hready : Ready source s.pending := by
      refine .inr ⟨lexed, ?_, ?_, hkind⟩
      · rw [← hcurrent]
        rfl
      · show Ordered source (lexed :: s.ahead.tail)
        rw [hahead, List.tail_cons, ← hahead]
        exact hheld.ordered
    have hvalue : Held source s.pending (.node e) v :=
      h.expression s.pending hbegun.ordered_here hready e v he
    exact Leaves.close rfl (.inl hs) (.refl _) (hvalue.absorb hne hheld.ordered) n t hok

theorem Settles.statementBody (h : r.Settle source) : Settles source Hand.node (statementBody r) := by
  refine fun s hs => .here (.kind fun k hk => ?_)
  split
  case h_9 =>
    exact .look .atFunctionDecl fun _ => .ite (fun _ => declaration h s hs) fun _ =>
      expressionStatement_leaves h hs
  case h_10 =>
    intro hheld n t hok
    rw [peek_bind] at hok
    rcases ite_eq_ok.mp hok with ⟨hfunc, hok⟩ | ⟨-, hok⟩
    · exact asyncStatement_leaves h hs hk (beq_iff_eq.mp hfunc) hheld n t hok
    · exact expressionStatement_leaves h hs hheld n t hok
  case h_11 => exact h.block s hs
  case h_12 => exact ifRule h s hs
  case h_13 => exact whileRule_leaves h hs hk
  case h_14 => exact forRule h s hs
  case h_15 =>
    exact .advance (hk ▸ Kind.noConfusion) (.part h.statement fun _ _ => .close rfl (.inl hs) (.refl _))
  case h_16 =>
    exact .advance (hk ▸ Kind.noConfusion) (.parts (.optionalValue _ h) fun _ _ => .close rfl (.inl hs) (.refl _))
  case h_17 | h_18 => exact .advance (hk ▸ Kind.noConfusion) (.close rfl (.inl hs) (.refl _))
  case h_19 => exact expressionStatement_leaves h hs
  all_goals exact declaration h s hs

theorem Settles.statementRule (h : r.Settle source) : Settles source Hand.node (statementRule r) :=
  fun s hs => .bind (statementBody h s hs) fun _ _ => .option rfl fun _ _ => .pure (.refl _)

/-- At any nesting, the rules read what they give. -/
theorem Rules.within_settle (source n : Nat) : (Rules.within n).Settle source := by
  induction n with
  | zero =>
    exact {
      expression := .tooDeep
      type := .tooDeep
      statement := .tooDeep
      block := .tooDeep
      structMember := .tooDeep
      operand := fun _ => .tooDeep
      unary := .tooDeep
      elseIf := .tooDeep
      moves := fun depth => (Rules.within_agree 0 depth).statement }
  | succ n ih =>
    exact {
      expression := (Leads.expressionRule ih).nested
      type := (Settles.typeRule ih).nested
      statement := (Settles.statementRule ih).nested
      block := (Settles.blockRule ih).nested
      structMember := (Settles.structMemberRule ih).nested
      operand := fun limit => (Leads.binary ih limit).settles.nested
      unary := (Leads.prefixed ih).settles.nested
      elseIf := (Settles.ifRule ih).nested
      moves := fun depth => (Rules.within_agree (n + 1) depth).statement }

end BraceLang.Grammar
