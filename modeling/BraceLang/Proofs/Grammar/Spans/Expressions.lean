import BraceLang.Proofs.Grammar.Makes.Expressions
import BraceLang.Proofs.Grammar.Shallow
import BraceLang.Proofs.Grammar.Spans

/-! Where types and expressions lie. Every layer of expressions may start with an asynchronous closure whose
    `async` was taken before; the closure is then the leading operand of whatever is put behind it. -/

namespace BraceLang.Grammar

variable {r : Rules} {source : Nat} {s o : State}

/-! ### Types -/

theorem typeSuffixStep_leaves (h : r.Settle source) (ho : o.pendingAsync = none) {start : Range}
    (hstart : start = o.current.range) (type : Node) (s : State) :
    Leaves source o (.node type) (fun step => .node step.value) s (typeSuffixStep r start type s) := by
  have hsize : Settles source (fun size => .nodes size.toList) (arraySize r) :=
    fun _ _ => .check fun _ _ => .ite (fun _ => .pure (.refl _)) fun _ =>
      .bind (.withStructLiterals fun _ => h.value.leaves) fun _ _ => .pure (.forget rfl)
  refine .eat rfl (fun _ => ?_) fun _ => .eat rfl (fun _ => ?_) fun _ => .pure (.refl _)
  · exact .parts hsize fun _ _ => .expect rfl fun _ _ =>
      .bind (.close hstart (.inl ho) ⟨fun _ => rfl, rfl, rfl⟩) fun _ _ => .pure (.refl _)
  · exact .bind (.close hstart (.inl ho) ⟨fun _ => rfl, rfl, rfl⟩) fun _ _ => .pure (.refl _)

theorem Settles.pathRest : Settles source Hand.idents pathRest := by
  intro s hs
  have hnames : Leaves source s .empty (fun names : Array Ident => .idents names.toList) s
      (repeating #[] pathStep s) := by
    refine .repeating (.refl _) fun names t => .check fun b hb => .look .peek fun _ => ?_
    refine .ite (fun hgo => ?_) fun _ => ?_
    · rw [Bool.and_eq_true, hb] at hgo
      exact .advance (hgo.1 ▸ Kind.noConfusion) (.expectName fun _ _ => .pure .pushIdent)
    · exact .pure (.refl _)
  exact .bind hnames fun _ _ => .pure (.refl _)

theorem Settles.namedType (h : r.Settle source) : Settles source Hand.ofShape (namedType r) := by
  refine fun s _ => .expectName fun _ _ => .idents .pathRest fun _ _ => .check fun b hb => ?_
  refine .look .atArraySuffix fun _ => .ite (fun hgo => ?_) fun _ => .pure ⟨fun _ => rfl, rfl, rfl⟩
  rw [Bool.and_eq_true, hb] at hgo
  exact .advance (hgo.1 ▸ Kind.noConfusion) (.parts (.list rfl h.type) fun _ _ =>
    .pure ⟨fun _ => rfl, rfl, rfl⟩)

theorem State.kind_ne_eof {k : Kind} {f : Kind → Bool} (hk : s.kind = k) (h : f k = true)
    (heof : f .eof = false) : s.kind ≠ .eof := by
  rintro hs
  rw [← hk, hs, heof] at h
  cases h

theorem Settles.pointee (h : r.Settle source) : Settles source Hand.ofShape (pointee r) :=
  fun _ _ => .option rfl fun _ _ => .part h.type fun _ _ => .pure (.refl _)

/-- The inner of two pointers starts after the token that stands for both. -/
theorem pointerTo_leaves (h : r.Settle source) : Leaves source o Hand.empty.begin Hand.ofShape s
    ((here >>= fun start => pointee r >>= fun shape => close start shape >>= fun n =>
      pure (Shape.pointer false n)) s) := by
  intro hheld shape t hok
  rw [here_bind] at hok
  obtain ⟨inner, u, hinner, hok⟩ := bind_eq_ok.mp hok
  obtain ⟨n, v, hn, hok⟩ := bind_eq_ok.mp hok
  obtain ⟨rfl, rfl⟩ := pure_eq_ok.mp hok
  have hpart : Leaves source s .empty Hand.node s ((pointee r >>= close s.current.range) s) :=
    .bind (Settles.pointee h s hheld.idle) fun _ _ => .close rfl (.inl hheld.idle) (.refl _)
  exact Leaves.onto (fun _ => hpart) hheld n v (bind_eq_ok.mpr ⟨inner, u, hinner, hn⟩)

theorem Settles.baseType (h : r.Settle source) : Settles source Hand.ofShape (baseType r) := by
  refine fun s _ => .kind fun k hk => .ite (fun hprim => ?_) fun _ => ?_
  · exact .advance (State.kind_ne_eof (f := (·.roles.primitive)) hk hprim rfl) (.pure (.refl _))
  split
  · exact namedType h s ‹_›
  · exact .advance (hk ▸ Kind.noConfusion) (.parts (.list rfl h.type) fun _ _ => .pure (.refl _))
  · exact .advance (hk ▸ Kind.noConfusion) (.expect rfl fun _ _ => .parts (.list rfl h.type) fun _ _ =>
      .parts (.optionalAfter rfl h.type) fun _ _ => .pure (.refl _))
  · exact .advance (hk ▸ Kind.noConfusion) ((pointee h).leaves.covers fun _ => ⟨fun _ => rfl, rfl, rfl⟩)
  · exact .advance (hk ▸ Kind.noConfusion) (pointerTo_leaves h)
  · exact .unexpected

theorem Settles.typeRule (h : r.Settle source) : Settles source Hand.node (typeRule r) :=
  fun s hs => .here (.bind (baseType h s hs) fun _ _ => .bind (.close rfl (.inl hs) (.refl _)) fun _ _ =>
    .repeating (.refl _) fun type t => typeSuffixStep_leaves h hs rfl type t)

/-! ### Signatures and closures -/

theorem Settles.parameter (h : r.Settle source) : Settles source Hand.node (parameter r) :=
  fun _ hs => .here (.expectName fun _ _ => .parts (.optionalAfter rfl h.type) fun _ _ =>
    .parts (.optionalAfter rfl h.value) fun _ _ => .close rfl (.inl hs) (.refl _))

theorem Settles.callSignature (h : r.Settle source) : Settles source Hand.node (callSignature r) :=
  fun _ hs => .here (.expect rfl fun _ _ => .parts (.list rfl (parameter h)) fun _ _ =>
    .parts (.optionalAfter rfl h.type) fun _ _ => .close rfl (.inl hs) (.refl _))

theorem Settles.closureBody (h : r.Settle source) : Settles source Hand.node (closureBody r) :=
  fun s hs => .eat rfl (fun _ => h.value.leaves.covers fun _ => ⟨fun _ => rfl, rfl, rfl⟩) fun _ =>
    .check fun _ _ => .ite (fun _ => h.block s hs) fun _ => .unexpected

/-- What follows once the start of a closure is known. -/
def closureFrom (inner : Rules) (start : Range) (isAsync : Bool) : Parser Node := do
  let _ ← expect .kwFunc
  let signature ← callSignature inner
  close start (.closure isAsync signature (← closureBody inner))

theorem takePendingAsync_of_idle (hs : s.pendingAsync = none) : takePendingAsync s = .ok none s := by
  have hsame : { s with pendingAsync := none } = s := by
    cases s
    cases hs
    rfl
  show EStateM.Result.ok s.pendingAsync { s with pendingAsync := none } = .ok none s
  rw [hsame, hs]

theorem takePendingAsync_of_pending {range : Range} (hs : s.pendingAsync = some range) :
    takePendingAsync s = .ok (some range) { s with pendingAsync := none } := by
  show EStateM.Result.ok s.pendingAsync { s with pendingAsync := none } = _
  rw [hs]

theorem closure_of_idle (hs : s.pendingAsync = none) :
    closure r s = (eat .kwAsync >>= closureFrom r s.current.range) s := by
  have hstart : closureStart s = (eat .kwAsync >>= fun isAsync => pure (s.current.range, isAsync)) s := by
    rw [closureStart, bind_of_ok (takePendingAsync_of_idle hs)]
    rfl
  rw [eat_bind] at hstart ⊢
  split at hstart
  · rw [if_pos ‹_›, closure, bind_of_ok hstart]
    rfl
  · rw [if_neg ‹_›, closure, bind_of_ok hstart]
    rfl

theorem closure_of_pending {range : Range} (hs : s.pendingAsync = some range) :
    closure r s = closureFrom r range true { s with pendingAsync := none } := by
  have hstart : closureStart s = .ok (range, true) { s with pendingAsync := none } := by
    rw [closureStart, bind_of_ok (takePendingAsync_of_pending hs)]
    rfl
  rw [closure, bind_of_ok hstart]
  rfl

theorem Leads.closure (h : r.Settle source) : Leads source (closure r) := by
  intro s hordered hready n t hok
  rcases hready with hs | ⟨lexed, hpending, hlexed, -⟩
  · have hfrom (isAsync : Bool) (u : State) :
        Leaves source s .empty Hand.node u (closureFrom r s.current.range isAsync u) :=
      .expect rfl fun _ _ => .part (.callSignature h) fun _ _ => .part (.closureBody h) fun _ _ =>
        .close rfl (.inl hs) (.refl _)
    rw [closure_of_idle hs] at hok
    have hclosure : Leaves source s .empty Hand.node s ((eat .kwAsync >>= closureFrom r s.current.range) s) :=
      .option rfl hfrom
    exact hclosure (.refl hordered hs) n t hok
  · rw [closure_of_pending hpending] at hok
    simp only [closureFrom, bind_eq_ok, expect_eq_ok, close_eq_ok] at hok
    obtain ⟨_, _, ⟨hfunc, -, rfl⟩, signature, u, hsignature, body, v, hbody, rfl, rfl⟩ := hok
    have hbegun : Held source { s with pendingAsync := none } Hand.empty.begin _ :=
      Held.mark (.refl hordered rfl) (hfunc ▸ Kind.noConfusion)
    have hsignature := (Settles.callSignature h).leaves hbegun signature u hsignature
    have hbody := (Settles.closureBody h).leaves hsignature body v hbody
    exact .early hpending hlexed hbody

/-! ### Primaries -/

theorem literal_bare (token : Token) : (literal token).idents = [] ∧ (literal token).toList = [] := by
  unfold literal
  split <;> exact ⟨rfl, rfl⟩

theorem templateStep_leaves (h : r.Settle source) (parts : Array Node) (s : State) :
    Leaves source o (.nodes parts.toList) (fun step => .nodes step.value.toList) s (templateStep r parts s) := by
  refine .kind fun k hk => ?_
  split
  · exact .advance (hk ▸ Kind.noConfusion) (.pure (.forget rfl))
  · -- The text is a node of its own, from the token on.
    intro hheld step t hok
    rw [advance_bind] at hok
    rcases ite_eq_ok.mp hok with ⟨-, hok⟩ | ⟨-, hok⟩
    · obtain ⟨rfl, rfl⟩ := pure_eq_ok.mp hok
      exact (hheld.mark (hk ▸ Kind.noConfusion)).covers (.forget rfl)
    · obtain ⟨n, u, hn, hok⟩ := bind_eq_ok.mp hok
      obtain ⟨rfl, rfl⟩ := pure_eq_ok.mp hok
      have hleaf : Leaves source s .empty Hand.node s
          ((advance >>= fun token => node (.str token.text) token.range) s) :=
        .leaf hheld.idle (hk ▸ Kind.noConfusion) rfl rfl rfl
      exact (Leaves.onto (fun _ => hleaf) hheld n u hn).covers .push
  · exact .unexpected
  · exact .bind (.withStructLiterals fun _ => h.value.leaves) fun _ _ => .pure .push

theorem Settles.template (h : r.Settle source) : Settles source Hand.node (template r) := by
  refine fun s hs => .here (.expect rfl fun _ t => ?_)
  have hparts : Settles source (fun parts : Array Node => .nodes parts.toList) (repeating #[] (templateStep r)) :=
    fun t _ => .repeating (.refl _) fun parts u => templateStep_leaves h parts u
  exact .parts hparts fun _ _ => .close rfl (.inl hs) (.refl _)

theorem moreElements_leaves (h : r.Settle source) (first : Node) (s : State) :
    Leaves source o (.nodes [first]) Hand.nodes s (moreElements r first s) := by
  have helements : Leaves source o (.nodes [first]) (fun elements : Array Node => .nodes elements.toList) s
      (repeating #[first] (elementStep r) s) := by
    refine .repeating (.refl _) fun elements t => .eat rfl (fun u => ?_) fun _ => ?_
    · exact .check fun _ _ => .ite (fun _ => .part h.value fun _ _ => .pure .push)
        fun _ => .pure (.forget rfl)
    · exact .check fun _ _ => .ite (fun hgo => absurd hgo Bool.false_ne_true) fun _ => .pure (.refl _)
  exact .bind helements fun _ _ => .pure (.refl _)

theorem Settles.insideParens (h : r.Settle source) : Settles source Hand.ofShape (insideParens r) := by
  refine fun s hs => .check fun _ _ => .ite (fun _ => ?_) fun _ => ?_
  · exact .expect rfl fun _ _ => .pure (.refl _)
  refine .part h.value fun first t => .check fun isTuple hcomma => ?_
  cases isTuple with
  | true =>
    refine .bind ((moreElements_leaves h first t).weaken (.forget rfl)) fun elements u => ?_
    exact .expect rfl fun _ _ => .pure (.refl _)
  | false =>
    have honly : moreElements r first t = .ok [first] t :=
      moreElements_of_ne_comma fun hk => Bool.false_ne_true (hcomma.mpr hk)
    rw [bind_of_ok honly]
    exact .expect rfl fun _ _ => .pure (.refl _)

theorem Settles.parenthesized (h : r.Settle source) : Settles source Hand.node (parenthesized r) :=
  fun _ hs => .here (.expect rfl fun _ _ => .bind (.withStructLiterals fun _ => (insideParens h).leaves)
    fun _ _ => .close rfl (.inl hs) ⟨fun _ => rfl, rfl, rfl⟩)

theorem Settles.fieldInit (h : r.Settle source) : Settles source Hand.node (fieldInit r) :=
  fun _ hs => .here (.expectName fun _ _ => .expect rfl fun _ _ => .part h.value fun _ _ =>
    .close rfl (.inl hs) (.refl _))

theorem nameOrStructLiteral_leaves (h : r.Settle source) (hs : s.pendingAsync = none) (hk : s.kind = .name) :
    Leaves source s .empty Hand.node s (nameOrStructLiteral r s) := by
  refine .here (.advance (hk ▸ Kind.noConfusion) (.bind (.node (.inl hs) (.refl _) s.rangeFrom_advance.symm) ?_))
  refine fun path t => .get (.check fun _ _ => .look .atStructLiteral fun _ => .ite (fun _ => ?_) fun _ => ?_)
  · exact .expect rfl fun _ _ => .parts (.list rfl (.fieldInit h)) fun _ _ => .close rfl (.inl hs) (.refl _)
  · exact .pure (.refl _)

theorem Settles.optionalValue (ends : Kind → Bool) (h : r.Settle source) :
    Settles source (fun value => .nodes value.toList) (optionalValue ends r) :=
  fun _ _ => .kind fun _ _ => .ite (fun _ => .pure (.refl _)) fun _ =>
    .part h.value fun _ _ => .pure (.forget rfl)

theorem primary_of_func (hk : s.kind = .kwFunc) : primary r s = closure r s := by
  rw [primary, here_bind, kind_bind, hk]

theorem Leads.primary (h : r.Settle source) : Leads source (primary r) := by
  intro s hordered hready n t hok
  by_cases hfunc : s.kind = .kwFunc
  · exact closure h s hordered hready n t (primary_of_func hfunc ▸ hok)
  have hs : s.pendingAsync = none := by
    refine hready.resolve_right ?_
    rintro ⟨_, _, _, hk⟩
    exact hfunc hk
  suffices hprimary : Leaves source s .empty Hand.node s (Grammar.primary r s) from
    hprimary (.refl hordered hs) n t hok
  refine .here (.kind fun k hk => ?_)
  split
  case h_7 => exact Settles.template h s hs
  case h_8 => exact Settles.parenthesized h s hs
  case h_9 => exact h.block s hs
  case h_10 =>
    exact .advance (hk ▸ Kind.noConfusion) (.parts (.list rfl h.value) fun _ _ => .close rfl (.inl hs) (.refl _))
  case h_11 => exact .advance (hk ▸ Kind.noConfusion) (.expectName fun _ _ => .close rfl (.inl hs) (.refl _))
  case h_12 => exact nameOrStructLiteral_leaves h hs hk
  case h_13 | h_14 => exact (closure h).settles s hs
  case h_15 =>
    exact .advance (hk ▸ Kind.noConfusion) (.part h.type fun _ _ => .expect rfl fun _ _ =>
      .parts (.list rfl h.value) fun _ _ => .close rfl (.inl hs) (.refl _))
  case h_16 =>
    exact .advance (hk ▸ Kind.noConfusion) (.parts (.optionalValue _ h) fun _ _ => .close rfl (.inl hs) (.refl _))
  case h_17 =>
    exact .advance (hk ▸ Kind.noConfusion) (.part h.value fun _ _ => .close rfl (.inl hs) (.refl _))
  case h_18 => exact .unexpected
  all_goals
    exact .leaf hs (hk ▸ Kind.noConfusion) (literal_bare s.current).1 (literal_bare s.current).2 rfl

/-! ### Operators -/

theorem Settles.memberName : Settles source Hand.node memberName := by
  refine fun s hs => .kind fun k hk => ?_
  split
  · exact .leaf hs (hk ▸ Kind.noConfusion) rfl rfl rfl
  · exact .leaf hs (hk ▸ Kind.noConfusion) rfl rfl rfl
  · exact .unexpected

theorem suffix?_leaves (h : r.Settle source) (target : Node) (s : State) :
    Leaves source o (.node target) (fun found => (found.map Hand.ofShape).getD (.node target)) s
      (suffix? r target s) := by
  refine .kind fun k hk => ?_
  split
  · exact .advance (hk ▸ Kind.noConfusion) (.pure (.refl _))
  · exact .advance (hk ▸ Kind.noConfusion) (.pure (.refl _))
  · exact .advance (hk ▸ Kind.noConfusion) (.part .memberName fun _ _ => .pure (.refl _))
  · exact .advance (hk ▸ Kind.noConfusion) (.part .memberName fun _ _ => .pure (.refl _))
  · exact .advance (hk ▸ Kind.noConfusion) (.parts (.list rfl h.value) fun _ _ => .pure (.refl _))
  · refine .advance (hk ▸ Kind.noConfusion) (.eat rfl (fun _ => ?_) fun _ => .pure (.refl _))
    exact .parts (.list rfl h.value) fun _ _ => .pure (.refl _)
  · exact .advance (hk ▸ Kind.noConfusion) (.parts (.list rfl h.value) fun _ _ => .pure (.refl _))
  · exact .advance (hk ▸ Kind.noConfusion) (.part h.type fun _ _ => .pure (.refl _))
  · exact .pure (.refl _)

theorem suffix?_leading (target : Node) :
    Ensures (fun found => ∀ shape ∈ found, shape.leading? = shape.toList.head?) (suffix? r target) := by
  have found {shape : Shape Node} (hshape : shape.leading? = shape.toList.head?) :
      ∀ other ∈ some shape, other.leading? = other.toList.head? := by
    rintro other ⟨⟩
    exact hshape
  refine .skip fun k => ?_
  split
  · exact .skip fun _ => .pure (found rfl)
  · exact .skip fun _ => .pure (found rfl)
  · exact .skip fun _ => .skip fun _ => .pure (found rfl)
  · exact .skip fun _ => .skip fun _ => .pure (found rfl)
  · exact .skip fun _ => .skip fun _ => .pure (found rfl)
  · exact .skip fun _ => .skip fun _ => .ite (.skip fun _ => .pure (found rfl)) (.pure (found rfl))
  · exact .skip fun _ => .skip fun _ => .pure (found rfl)
  · exact .skip fun _ => .skip fun _ => .pure (found rfl)
  · exact .pure fun _ hshape => by cases hshape

theorem suffixStep_leaves (h : r.Settle source) (target : Node) (s : State) :
    Leaves source o (.node target) (fun step => .node step.value) s
      (suffixStep r o.current.range target s) := by
  intro hheld step t hok
  obtain ⟨found, u, hfound, hok⟩ := bind_eq_ok.mp hok
  have hsuffix := suffix?_leaves h target s hheld found u hfound
  cases found with
  | some shape =>
    have hleading := suffix?_leading target s _ u hfound shape rfl
    have hclose : Leaves source o (.ofShape shape) (fun step => .node step.value) u
        ((close o.current.range shape >>= fun n => pure (.yield n) : Parser (ForInStep Node)) u) :=
      .bind (.close rfl (.inr hleading) (.refl _)) fun _ _ => .pure (.refl _)
    exact hclose hsuffix step t hok
  | none =>
    obtain ⟨rfl, rfl⟩ := pure_eq_ok.mp hok
    exact hsuffix

theorem Leads.suffixed (h : r.Settle source) : Leads source (suffixed r) := by
  intro s hordered hready n t hok
  refine (primary h).follow hordered hready (fun first u => ?_) hok
  exact .repeating (.refl _) fun target v => suffixStep_leaves h target v

theorem Leads.prefixed (h : r.Settle source) : Leads source (prefixed r) := by
  intro s hordered hready n t hok
  rw [Grammar.prefixed, kind_bind] at hok
  rcases ite_eq_ok.mp hok with ⟨hop, hok⟩ | ⟨-, hok⟩
  · have hs : s.pendingAsync = none := by
      refine hready.resolve_right ?_
      rintro ⟨_, _, _, hk⟩
      rw [hk] at hop
      cases hop
    have hprefix : Leaves source s .empty Hand.node s ((here >>= fun start => advance >>= fun _ =>
        r.unary >>= fun operand => close start (.prefixed s.kind operand)) s) :=
      .here (.advance (State.kind_ne_eof (f := (·.roles.prefixOp)) rfl hop rfl) (.part h.unary fun _ _ =>
        .close rfl (.inl hs) (.refl _)))
    exact hprefix (.refl hordered hs) n t hok
  · exact suffixed h s hordered hready n t hok

theorem binaryStep_leaves (h : r.Settle source) (limit : Nat) (lhs : Node) (s : State) :
    Leaves source o (.node lhs) (fun step => .node step.value) s
      (binaryStep r limit o.current.range lhs s) := by
  refine .kind fun k hk => .ite (fun hop => ?_) fun _ => .pure (.refl _)
  rw [Bool.and_eq_true] at hop
  exact .advance (State.kind_ne_eof (f := (·.roles.binary)) hk hop.1 rfl) (.part (h.operand _) fun _ _ =>
    .bind (.close rfl (.inr rfl) (.refl _)) fun _ _ => .pure (.refl _))

theorem Leads.binary (h : r.Settle source) (limit : Nat) : Leads source (binary r limit) := by
  intro s hordered hready n t hok
  refine (prefixed h).follow hordered hready (fun first u => ?_) hok
  exact .repeating (.refl _) fun lhs v => binaryStep_leaves h limit lhs v

theorem Leads.assignment (h : r.Settle source) : Leads source (assignment r) := by
  intro s hordered hready n t hok
  refine (binary h Kind.loosest).follow hordered hready (fun target u => .kind fun op hk => ?_) hok
  refine .ite (fun hop => ?_) fun _ => .pure (.refl _)
  exact .advance (State.kind_ne_eof (f := (·.roles.assignment)) hk hop rfl) (.part h.value fun _ _ =>
    .close rfl (.inr rfl) (.refl _))

theorem Settles.middleBranch (h : r.Settle source) :
    Settles source (fun branch => .nodes branch.toList) (middleBranch r) :=
  fun _ _ => .eat rfl (fun _ => .pure (.forget rfl)) fun _ => .part h.value fun _ _ =>
    .expect rfl fun _ _ => .pure (.forget rfl)

theorem Leads.expressionRule (h : r.Settle source) : Leads source (expressionRule r) := by
  intro s hordered hready n t hok
  refine (assignment h).follow hordered hready (fun condition u => .kind fun k hk => ?_) hok
  refine .ite (fun hop => ?_) fun _ => .pure (.refl _)
  exact .advance (State.kind_ne_eof (f := (·.roles.ternary)) hk hop rfl) (.parts (.middleBranch h) fun _ _ =>
    .part h.value fun _ _ => .close rfl (.inr rfl) (.refl _))

end BraceLang.Grammar
