import BraceLang.Proofs.Grammar.Conduct
import BraceLang.Proofs.Grammar.Termination

/-! Types and expressions, rule by rule: each stays in the area of its tokens, and each layer of expressions
    gives what the layer admits.

    That the left operand of an operator binds at least as tightly rests on the token behind the operand
    before: what could bind tighter has been taken in already (`binary_stops`). That no conditional has
    an assignment for its condition rests on the token behind an expression, which never starts the
    branches of a conditional (`expressionRule_stops`). -/

namespace BraceLang.Grammar

variable {area : Area} {r : Rules} {α : Type} {s : State}

/-! ### Looking ahead -/

theorem atArraySuffix_upholds : Upholds area (fun _ => True) atArraySuffix := by
  refine .peek fun k => ?_
  split
  · exact .pure trivial
  · exact .peek fun _ => .pure trivial
  · exact .peek fun _ => .pure trivial
  · exact .pure trivial

theorem atStructLiteral_upholds : Upholds area (fun _ => True) atStructLiteral := by
  refine .peek fun k => ?_
  split
  · exact .pure trivial
  · exact .peek fun _ => .pure trivial
  · exact .pure trivial

/-- The names lie in the area. -/
def NamesWithin (area : Area) (names : List Ident) : Prop := ∀ name ∈ names, name.range ∈ area

theorem NamesWithin.push {names : Array Ident} {name : Ident} (h : NamesWithin area names.toList)
    (hname : name.range ∈ area) : NamesWithin area (names.push name).toList := by
  rw [Array.toList_push]
  exact List.forall_mem_append.mpr ⟨h, List.forall_mem_singleton.mpr hname⟩

theorem pathRest_upholds : Upholds area (NamesWithin area) pathRest := by
  have nothing : NamesWithin area (#[] : Array Ident).toList := List.forall_mem_nil _
  refine .bind (.repeating (P := fun names => NamesWithin area names.toList) nothing fun names hnames => ?_)
    fun _ hnames => .pure hnames
  refine .check fun _ => .peek fun _ => .ite (.advance fun _ _ => .name fun _ hname => ?_) (.pure hnames)
  exact .pure (hnames.push hname)

section Rules
variable (h : r.Conduct area)
include h

/-! ### Types -/

theorem typeSuffixStep_upholds {start : Range} {type : Node} (hstart : start ∈ area)
    (htype : type.Sound area ∧ Layer.any.admits type.shape = true) :
    Upholds area (fun step => step.value.Sound area ∧ Layer.any.admits step.value.shape = true)
      (typeSuffixStep r start type) := by
  have hsize : Upholds area (fun size => AllSound area size.toList) (arraySize r) :=
    .check fun _ => .ite (.pure .nil)
      (.bind (.withStructLiterals h.expression) fun _ hn => .pure (.one hn.1))
  refine .eat fun _ => .ite ?_ (.eat fun _ => .ite ?_ (.pure htype))
  · refine .bind hsize fun size hsize => .expect fun _ _ => ?_
    exact .bind (.close hstart (.plain rfl rfl (.cons htype.1 hsize)) rfl) fun _ hn => .pure hn
  · exact .bind (.close hstart (.plain rfl rfl (.one htype.1)) rfl) fun _ hn => .pure hn

theorem namedType_supplies : SuppliesShape area .any (namedType r) := by
  refine .name fun head hhead => .bind pathRest_upholds fun path hpath => .check fun _ => ?_
  refine .bind atArraySuffix_upholds fun _ _ => .ite (.advance fun _ _ => ?_) (.pure ?_)
  · refine .bind (.list h.type) fun args hargs => .pure ⟨⟨?_, List.forall_mem_nil _, hargs⟩, rfl⟩
    exact List.forall_mem_cons.mpr ⟨hhead, hpath⟩
  · exact ⟨⟨List.forall_mem_cons.mpr ⟨hhead, hpath⟩, List.forall_mem_nil _, .nil⟩, rfl⟩

theorem pointee_supplies : SuppliesShape area .any (pointee r) :=
  .eat fun _ => .bind h.type fun _ hn => .pure ⟨.plain rfl rfl (.one hn.1), rfl⟩

theorem baseType_supplies : SuppliesShape area .any (baseType r) := by
  refine .kind fun k => .ite (.advance fun _ _ => .pure ⟨.plain rfl rfl .nil, rfl⟩) ?_
  split
  · exact namedType_supplies h
  · exact .advance fun _ _ => .bind (.list h.type) fun _ hparts => .pure ⟨.plain rfl rfl hparts, rfl⟩
  · exact .advance fun _ _ => .expect fun _ _ => .bind (.list h.type) fun _ hparams =>
      .bind (.optionalAfter h.type) fun _ hresult => .pure ⟨.plain rfl rfl (hparams.append hresult), rfl⟩
  · exact .advance fun _ _ => pointee_supplies h
  · refine .advance fun _ _ => .here fun _ hstart => .bind (pointee_supplies h) fun _ hshape => ?_
    exact .bind (.close hstart hshape.1 hshape.2) fun _ hn => .pure ⟨.plain rfl rfl (.one hn.1), rfl⟩
  · exact .unexpected

theorem typeRule_supplies : Supplies area .any (typeRule r) :=
  .here fun _ hstart => .bind (baseType_supplies h) fun _ hshape =>
    .bind (.close hstart hshape.1 hshape.2) fun _ hn =>
      .repeating hn fun _ htype => typeSuffixStep_upholds h hstart htype

/-! ### Signatures and closures -/

theorem parameter_supplies : Supplies area .any (parameter r) :=
  .here fun _ hstart => .name fun _ hname => .bind (.optionalAfter h.type) fun _ htype =>
    .bind (.optionalAfter h.expression) fun _ hdefault =>
      .close hstart (.named rfl hname rfl (htype.append hdefault)) rfl

theorem callSignature_supplies : Supplies area .any (callSignature r) :=
  .here fun _ hstart => .expect fun _ _ => .bind (.list (parameter_supplies h)) fun _ hparams =>
    .bind (.optionalAfter h.type) fun _ hresult =>
      .close hstart (.plain rfl rfl (hparams.append hresult)) rfl

omit h in
theorem takePendingAsync_upholds : Upholds area (fun async => ∀ r ∈ async, r ∈ area) takePendingAsync :=
  fun _ hs => ⟨.one (e := .hold none) (by rintro _ ⟨⟩), hs.pending⟩

omit h in
theorem closureStart_upholds : Upholds area (fun start => start.1 ∈ area) closureStart := by
  refine .bind takePendingAsync_upholds fun async hasync => ?_
  cases async with
  | some range => exact .pure (hasync range rfl)
  | none => exact .here fun _ hstart => .eat fun _ => .pure hstart

theorem closureBody_supplies : Supplies area .any (closureBody r) :=
  .eat fun _ => .ite h.expression (.check fun _ => .ite h.block.weaken .unexpected)

theorem closure_supplies : Supplies area .suffixed (closure r) :=
  .bind closureStart_upholds fun _ hstart => .expect fun _ _ =>
    .bind (callSignature_supplies h) fun _ hsignature => .bind (closureBody_supplies h) fun _ hbody =>
      .close hstart (.plain rfl rfl (.cons hsignature.1 (.one hbody.1))) rfl

/-! ### Primaries -/

theorem template_supplies : Supplies area .suffixed (template r) := by
  refine .here fun _ hstart => .expect fun _ _ => .bind (.collecting .nil fun parts hparts => ?_)
    fun _ hparts => .close hstart (.plain rfl rfl hparts) rfl
  refine .kind fun k => ?_
  split
  · exact .advance fun _ _ => .pure hparts
  · refine .advance fun token htoken => .ite (.pure hparts) ?_
    have htext : Supplies area .any (node (.str token.text) token.range) :=
      .node htoken (.plain rfl rfl .nil) rfl
    exact .bind htext fun _ hn => .pure (hparts.push hn.1)
  · exact .unexpected
  · exact .bind (.withStructLiterals h.expression) fun _ hn => .pure (hparts.push hn.1)

theorem moreElements_upholds {first : Node} (hfirst : first.Sound area) :
    Upholds area (AllSound area) (moreElements r first) := by
  refine .bind (.collecting (.one hfirst) fun elements helements => ?_) fun _ helements => .pure helements
  exact .eat fun _ => .check fun _ => .ite
    (.bind h.expression fun _ hn => .pure (helements.push hn.1)) (.pure helements)

theorem insideParens_supplies : SuppliesShape area .suffixed (insideParens r) := by
  refine .check fun _ => .ite (.expect fun _ _ => .pure ⟨.plain rfl rfl .nil, rfl⟩) ?_
  refine .bind h.expression fun first hfirst => .check fun isTuple => ?_
  refine .bind (moreElements_upholds h hfirst.1) fun elements helements => .expect fun _ _ => .pure ?_
  cases isTuple with
  | true => exact ⟨.plain rfl rfl helements, rfl⟩
  | false => exact ⟨.plain rfl rfl (.one hfirst.1), rfl⟩

theorem parenthesized_supplies : Supplies area .suffixed (parenthesized r) :=
  .here fun _ hstart => .expect fun _ _ => .bind (.withStructLiterals (insideParens_supplies h))
    fun _ hshape => .close hstart hshape.1 hshape.2

theorem fieldInit_supplies : Supplies area .any (fieldInit r) :=
  .here fun _ hstart => .name fun _ hname => .expect fun _ _ => .bind h.expression fun _ hn =>
    .close hstart (.named rfl hname rfl (.one hn.1)) rfl

theorem nameOrStructLiteral_supplies : Supplies area .suffixed (nameOrStructLiteral r) := by
  refine .here fun _ hstart => .advance fun token htoken => ?_
  have hname : Supplies area .suffixed (node (.name token.text) token.range) :=
    .node htoken (.plain rfl rfl .nil) rfl
  refine .bind hname fun path hpath => ?_
  refine .get fun _ => .check fun _ => .bind atStructLiteral_upholds fun _ _ => .ite ?_ (.pure hpath)
  exact .expect fun _ _ => .bind (.list (fieldInit_supplies h)) fun _ hfields =>
    .close hstart (.plain rfl rfl (.cons hpath.1 hfields)) rfl

theorem optionalValue_upholds (ends : Kind → Bool) :
    Upholds area (fun value => AllSound area value.toList) (optionalValue ends r) :=
  .kind fun _ => .ite (.pure .nil) (.bind h.expression fun _ hn => .pure (.one hn.1))

omit h in
theorem literal_supplies {token : Token} (htoken : token.range ∈ area) :
    Supplies area .suffixed (node (literal token) token.range) := by
  unfold literal
  split <;> exact .node htoken (.plain rfl rfl .nil) rfl

theorem primary_supplies : Supplies area .suffixed (primary r) := by
  refine .here fun _ hstart => .kind fun k => ?_
  split
  case h_7 => exact template_supplies h
  case h_8 => exact parenthesized_supplies h
  case h_9 => exact h.block
  case h_10 =>
    exact .advance fun _ _ => .bind (.list h.expression) fun _ hparts => .close hstart (.plain rfl rfl hparts) rfl
  case h_11 => exact .advance fun _ _ => .name fun _ hname => .close hstart (.named rfl hname rfl .nil) rfl
  case h_12 => exact nameOrStructLiteral_supplies h
  case h_13 | h_14 => exact closure_supplies h
  case h_15 =>
    exact .advance fun _ _ => .bind h.type fun _ htype => .expect fun _ _ => .bind (.list h.expression)
      fun _ hargs => .close hstart (.plain rfl rfl (.cons htype.1 hargs)) rfl
  case h_16 =>
    exact .advance fun _ _ => .bind (optionalValue_upholds h _) fun _ hvalue =>
      .close hstart (.plain rfl rfl hvalue) rfl
  case h_17 =>
    exact .advance fun _ _ => .bind h.expression fun _ hn => .close hstart (.plain rfl rfl (.one hn.1)) rfl
  case h_18 => exact .unexpected
  all_goals exact .advance fun _ htoken => literal_supplies htoken

/-! ### Suffixes and prefix operators -/

omit h in
theorem memberName_supplies : Supplies area .any memberName := by
  refine .kind fun k => ?_
  split
  · exact .advance fun _ htoken => .node htoken (.plain rfl rfl .nil) rfl
  · exact .advance fun _ htoken => .node htoken (.plain rfl rfl .nil) rfl
  · exact .unexpected

/-- A suffix stands behind a target of its own layer. -/
theorem suffix?_upholds {target : Node} (htarget : target.Sound area)
    (hlayer : Layer.suffixed.admits target.shape = true) :
    Upholds area (fun found => ∀ shape ∈ found, shape.Sound area ∧ Layer.suffixed.admits shape = true)
      (suffix? r target) := by
  have found {shape : Shape Node} {rest : List Node} (hnames : shape.idents = [])
      (hoperands : shape.operands = [(.suffixed, target)]) (hparts : shape.toList = target :: rest)
      (hrest : AllSound area rest) (hadmits : Layer.suffixed.admits shape = true) :
      ∀ other ∈ some shape, other.Sound area ∧ Layer.suffixed.admits other = true := by
    rintro other ⟨⟩
    exact ⟨.behind hnames hoperands hlayer (hparts ▸ .cons htarget hrest), hadmits⟩
  refine .kind fun k => ?_
  split
  · exact .advance fun _ _ => .pure (found rfl rfl rfl .nil rfl)
  · exact .advance fun _ _ => .pure (found rfl rfl rfl .nil rfl)
  · exact .advance fun _ _ => .bind memberName_supplies fun _ hn => .pure (found rfl rfl rfl (.one hn.1) rfl)
  · exact .advance fun _ _ => .bind memberName_supplies fun _ hn => .pure (found rfl rfl rfl (.one hn.1) rfl)
  · exact .advance fun _ _ => .bind (.list h.expression) fun _ hargs => .pure (found rfl rfl rfl hargs rfl)
  · refine .advance fun _ _ => .eat fun _ => .ite ?_ (.pure (found rfl rfl rfl .nil rfl))
    exact .bind (.list h.expression) fun _ hargs => .pure (found rfl rfl rfl hargs rfl)
  · exact .advance fun _ _ => .bind (.list h.expression) fun _ hargs => .pure (found rfl rfl rfl hargs rfl)
  · exact .advance fun _ _ => .bind h.type fun _ hn => .pure (found rfl rfl rfl (.one hn.1) rfl)
  · exact .pure fun _ hshape => by cases hshape

theorem suffixed_supplies : Supplies area .suffixed (suffixed r) := by
  refine .here fun start hstart => .bind (primary_supplies h) fun _ hn => .repeating hn fun target htarget => ?_
  refine .bind (suffix?_upholds h htarget.1 htarget.2) fun found hfound => ?_
  cases found with
  | some shape =>
    obtain ⟨hshape, hlayer⟩ := hfound shape rfl
    exact .bind (.close hstart hshape hlayer) fun _ hn => .pure hn
  | none => exact .pure htarget

theorem prefixed_supplies : Supplies area .prefixed (prefixed r) := by
  refine .kind fun op => .ite (.here fun _ hstart => .advance fun _ _ => ?_) ?_
  · exact .bind h.unary fun _ hn => .close hstart (.behind rfl rfl hn.2 (.one hn.1)) rfl
  · exact Upholds.mono (suffixed_supplies h) fun _ hn => ⟨hn.1, Layer.admits_prefixed hn.2⟩

/-! ### Binary operators -/

/-- What stands on the left of a place where operators may follow: whichever binary operator comes next,
    it can take this for its left operand. -/
structure LeftOperand (area : Area) (limit : Nat) (lhs : Node) (s : State) : Prop where
  sound : lhs.Sound area
  layer : (Layer.binary limit).admits lhs.shape = true
  next : s.kind.roles.binary = true → (Layer.binary (s.kind.precedence + 1)).admits lhs.shape = true

omit h in
theorem LeftOperand.of_prefixed {limit : Nat} {lhs : Node} (hlhs : lhs.Sound area)
    (hlayer : Layer.prefixed.admits lhs.shape = true) : LeftOperand area limit lhs s :=
  ⟨hlhs, Layer.admits_binary hlayer, fun _ => Layer.admits_binary hlayer⟩

theorem binaryStep_fair {limit : Nat} {start : Range} {lhs : Node} (hstart : start ∈ area)
    (hs : s.Within area) (hlhs : LeftOperand area limit lhs s) :
    Outcome.Fair area (fun step t => LeftOperand area limit step.value t) s
      (binaryStep r limit start lhs s) := by
  rw [binaryStep, kind_bind]
  split
  · rename_i hop
    rw [Bool.and_eq_true, decide_eq_true_eq] at hop
    refine .after (.one (e := .take) trivial) ?_
    have hrhs := Upholds.stopsBefore (h.operand s.kind.precedence) (h.operand_stops s.kind.precedence) hs.advance
    refine .bind hs.advance hrhs fun rhs t ht hread => ?_
    obtain ⟨hrhs, hnext⟩ := hread
    have hshape : (Shape.binary s.kind lhs rhs).Sound area := by
      refine ⟨List.forall_mem_nil _, ?_, .cons hlhs.sound (.one hrhs.1)⟩
      exact List.forall_mem_cons.mpr ⟨hlhs.next hop.1, List.forall_mem_singleton.mpr hrhs.2⟩
    rw [bind_of_ok (close_run start _ t)]
    refine ⟨.one (e := .identify) trivial, hshape.node (ht.rangeFrom hstart), decide_eq_true hop.2, ?_⟩
    -- an operator behind the right operand binds no tighter than this one
    exact fun hbinary => decide_eq_true (Nat.lt_succ_of_le (hnext hbinary))
  · exact ⟨.refl s, hlhs⟩

theorem binary_supplies (limit : Nat) : Supplies area (.binary limit) (binary r limit) := by
  refine .here fun start hstart => fun s hs => .bind hs (prefixed_supplies h s hs) fun first t ht hfirst => ?_
  have hloop : Outcome.Fair area (LeftOperand area limit) t (repeating first (binaryStep r limit start) t) :=
    .repeating ht (.of_prefixed hfirst.1 hfirst.2) fun _ _ hs hlhs => binaryStep_fair h hstart hs hlhs
  exact hloop.mono fun _ _ hn => ⟨hn.sound, hn.layer⟩

/-! ### Assignments and conditionals -/

/-- An assignment takes in a conditional behind it, so the branches of a conditional follow only what is
    none. -/
theorem assignment_fair (hs : s.Within area) :
    Outcome.Fair area (fun n t => n.Sound area ∧
      ((Layer.binary Kind.loosest).admits n.shape = true ∨ t.kind.roles.ternary = false)) s
      (assignment r s) := by
  rw [assignment, here_bind]
  refine .bind hs (binary_supplies h Kind.loosest s hs) fun target t ht htarget => ?_
  rw [kind_bind]
  split
  · refine .after (.one (e := .take) trivial) ?_
    have hvalue := Upholds.stopsBefore h.expression h.expression_stops ht.advance
    refine .bind ht.advance hvalue fun value u hu hread => ?_
    obtain ⟨hvalue, hnext⟩ := hread
    have hshape : (Shape.assign t.kind target value).Sound area :=
      .behind rfl rfl htarget.2 (.cons htarget.1 (.one hvalue.1))
    rw [close_run]
    exact ⟨.one (e := .identify) trivial, hshape.node (hu.rangeFrom hs.current), .inr hnext⟩
  · exact ⟨.refl t, htarget.1, .inl htarget.2⟩

theorem middleBranch_upholds : Upholds area (fun branch => AllSound area branch.toList) (middleBranch r) :=
  .eat fun _ => .ite (.pure .nil) (.bind h.expression fun _ hn => .expect fun _ _ => .pure (.one hn.1))

theorem expressionRule_supplies : Supplies area .any (expressionRule r) := by
  refine .here fun start hstart => fun s hs => .bind hs (assignment_fair h hs) fun condition t ht hcondition => ?_
  obtain ⟨hsound, hlayer⟩ := hcondition
  rw [kind_bind]
  split
  · rename_i hternary
    have hlayer : (Layer.binary Kind.loosest).admits condition.shape = true :=
      hlayer.resolve_right fun hnot => Bool.false_ne_true (hnot.symm.trans hternary)
    have branches : Supplies area .any (do
        let _ ← advance
        let whenTrue ← middleBranch r
        close start (.ternary condition whenTrue (← r.expression))) :=
      .advance fun _ _ => .bind (middleBranch_upholds h) fun _ htrue => .bind h.expression fun _ hfalse =>
        .close hstart (.behind rfl rfl hlayer (.cons hsound (htrue.append (.one hfalse.1)))) rfl
    exact branches t ht
  · exact ⟨.refl t, hsound, rfl⟩

end Rules

/-! ### What stands behind an expression -/

/-- Operands joined by operators end where no operator can join them further. -/
theorem binary_stops (h : r.LoopsAdvance) (limit : Nat) :
    StopsBefore (fun k => k.roles.binary = true → limit ≤ k.precedence) (binary r limit) := by
  intro s n t hok
  rw [binary, here_bind] at hok
  obtain ⟨first, u, -, hloop⟩ := bind_eq_ok.mp hok
  obtain ⟨lhs, v, hlast⟩ := ((h.operators limit _).loop first u).last_of_ok hloop
  rw [binaryStep, kind_bind] at hlast
  rcases ite_eq_ok.mp hlast with ⟨-, hstep⟩ | ⟨hop, hstep⟩
  · rw [advance_bind] at hstep
    obtain ⟨rhs, w, -, hrest⟩ := bind_eq_ok.mp hstep
    obtain ⟨closed, x, -, hyield⟩ := bind_eq_ok.mp hrest
    cases hyield
  · obtain ⟨-, rfl⟩ := pure_eq_ok.mp hstep
    intro hbinary
    rw [hbinary, Bool.true_and, decide_eq_true_eq] at hop
    exact Nat.le_of_not_lt hop

/-- Behind an expression no branches of a conditional start. -/
theorem expressionRule_stops (h : StopsBefore (fun k => k.roles.ternary = false) r.expression) :
    StopsBefore (fun k => k.roles.ternary = false) (expressionRule r) := by
  intro s n t hok
  rw [expressionRule, here_bind] at hok
  obtain ⟨condition, u, -, hrest⟩ := bind_eq_ok.mp hok
  rw [kind_bind] at hrest
  rcases ite_eq_ok.mp hrest with ⟨-, hrest⟩ | ⟨hnot, hrest⟩
  · rw [advance_bind] at hrest
    obtain ⟨whenTrue, v, -, hrest⟩ := bind_eq_ok.mp hrest
    obtain ⟨whenFalse, w, hexpression, hrest⟩ := bind_eq_ok.mp hrest
    obtain ⟨-, rfl⟩ := close_eq_ok.mp hrest
    have hkind : w.kind.roles.ternary = false := h hexpression
    exact hkind
  · obtain ⟨-, rfl⟩ := pure_eq_ok.mp hrest
    exact Bool.eq_false_iff.mpr hnot

end BraceLang.Grammar
