import BraceLang.Proofs.Grammar.Templates.Parts

/-! Templates in types and expressions: each of their rules takes the templates that it meets whole. An `async`
    may wait in front of an expression, which then starts with a function (`Leading`). -/

namespace BraceLang.Grammar

variable {x : HollowText} {r : Rules} {pre : Prop} {s : State}

namespace Sparing

/-! ### Types -/

theorem arraySize (h : r.Spare x) : Sparing x (fun size => x.AllSound size.toList) (arraySize r) :=
  fun _ _ => .ite (fun _ => .pure fun _ => .nil) fun _ =>
    .bind (.withStructLiterals (h.value _ _)) fun _ _ => .pure fun ⟨_, hsize⟩ => .single hsize

theorem typeSuffixStep (h : r.Spare x) (start : Range) (type : Node) (s : State) :
    Spares x (x.Sound type) (fun step => x.Sound step.value) s (typeSuffixStep r start type s) := by
  refine .eat rfl fun _ _ => .ite (fun _ => ?_) fun _ => .eat rfl fun _ _ => .ite (fun _ => ?_) fun _ => ?_
  · exact .bind (arraySize h _ _) fun _ _ => .expect rfl fun _ _ =>
      .bind (.close fun ⟨htype, hsize⟩ => ⟨rfl, .cons htype hsize⟩) fun _ _ => .pure And.right
  · exact .bind (.close fun htype => ⟨rfl, .single htype⟩) fun _ _ => .pure And.right
  · exact .pure id

theorem pathRest : Sparing x (fun _ => True) pathRest := by
  refine fun _ s => .seq (.repeating (fun _ => trivial) fun names t => ?_) fun _ _ => .pure fun _ => trivial
  refine .check fun b hb => .look .peek fun k => .ite (fun hk => ?_) fun _ => .pure id
  rw [Bool.and_eq_true] at hk
  exact .advance (hb hk.1) rfl (.expectName fun _ _ => .pure fun _ => trivial)

theorem namedType (h : r.Spare x) : Sparing x x.SoundParts (namedType r) := by
  refine fun _ s => .expectName fun _ t => .seq (pathRest _ t) fun _ u => ?_
  refine .check fun b hb => .look .atArraySuffix fun suffix => .ite (fun hk => ?_) fun _ => ?_
  · rw [Bool.and_eq_true] at hk
    exact .advance (hb hk.1) rfl (.bind (.list rfl h.type) fun _ _ => .pure fun ⟨_, hargs⟩ => ⟨rfl, hargs⟩)
  · exact .pure fun _ => ⟨rfl, .nil⟩

theorem pointee (h : r.Spare x) : Sparing x x.SoundParts (pointee r) :=
  fun _ _ => .eat rfl fun _ t => .bind (h.type _ t) fun _ _ => .pure fun ⟨_, htype⟩ => ⟨rfl, .single htype⟩

theorem baseType (h : r.Spare x) : Sparing x x.SoundParts (baseType r) := by
  refine fun _ s => .kind fun k hk => .ite (fun hprim => ?_) fun _ => ?_
  · exact .advance hk (Kind.isTemplate_of_role (·.roles.primitive) hprim rfl) (.pure fun _ => ⟨rfl, .nil⟩)
  split
  · exact namedType h _ s
  · exact .advance hk rfl (.bind (.list rfl h.type) fun _ _ => .pure fun ⟨_, htypes⟩ => ⟨rfl, htypes⟩)
  · exact .advance hk rfl (.expect rfl fun _ _ => .bind (.list rfl h.type) fun _ _ =>
      .bind (.optionalAfter rfl h.type) fun _ _ =>
        .pure fun ⟨⟨_, hparams⟩, hresult⟩ => ⟨rfl, hparams.append hresult⟩)
  · exact .advance hk rfl (pointee h _ _)
  · exact .advance hk rfl (.here (.bind (pointee h _ _) fun _ _ =>
      .bind (.close And.right) fun _ _ => .pure fun ⟨_, htype⟩ => ⟨rfl, .single htype⟩))
  · exact .unexpected

theorem typeRule (h : r.Spare x) : Sparing x x.Sound (typeRule r) :=
  fun _ s => .here (.bind (baseType h _ s) fun _ _ => .bind (.close And.right) fun _ _ =>
    .repeating And.right fun type t => typeSuffixStep h _ type t)

/-! ### Signatures and closures -/

theorem parameter (h : r.Spare x) : Sparing x x.Sound (parameter r) :=
  fun _ _ => .here (.expectName fun _ _ => .bind (.optionalAfter rfl h.type) fun _ _ =>
    .bind (.optionalAfter rfl h.value) fun _ _ =>
      .close fun ⟨⟨_, htype⟩, hdefault⟩ => ⟨rfl, htype.append hdefault⟩)

theorem callSignature (h : r.Spare x) : Sparing x x.Sound (callSignature r) :=
  fun _ _ => .here (.expect rfl fun _ _ => .bind (.list rfl (parameter h)) fun _ _ =>
    .bind (.optionalAfter rfl h.type) fun _ _ =>
      .close fun ⟨⟨_, hparams⟩, hresult⟩ => ⟨rfl, hparams.append hresult⟩)

theorem takePendingAsync {entry : Prop} : SparesFrom x entry pre (fun _ => True) s (takePendingAsync s) :=
  .across (.setPendingAsync s none) (fun _ => rfl) (.of_ahead_eq rfl) (.pure fun _ => trivial)

theorem closureStart {entry : Prop} : SparesFrom x entry pre (fun _ => True) s (closureStart s) := by
  refine .seq takePendingAsync fun pending t => ?_
  cases pending with
  | some range => exact .pure fun _ => trivial
  | none => exact .here (.eat rfl fun _ _ => .pure fun _ => trivial)

theorem closureBody (h : r.Spare x) : Sparing x x.Sound (closureBody r) :=
  fun _ _ => .eat rfl fun _ t => .ite (fun _ => h.value _ t) fun _ =>
    .check fun _ _ => .ite (fun _ => h.block _ t) fun _ => .unexpected

/-- A closure may begin where an `async` waits for it. -/
theorem closure {entry : Prop} (h : r.Spare x) : SparesFrom x entry pre x.Sound s (closure r s) :=
  .seq closureStart fun _ _ => .expect rfl fun _ t =>
    .bind (callSignature h _ t) fun _ u => .bind (closureBody h _ u) fun _ _ =>
      .close fun ⟨⟨_, hsignature⟩, hbody⟩ => ⟨rfl, .pair hsignature hbody⟩

/-! ### Primaries -/

theorem soundParts_literal (token : Token) : x.SoundParts (literal token) := by
  unfold literal
  split <;> exact ⟨rfl, .nil⟩

theorem elementStep (h : r.Spare x) (elements : Array Node) (s : State) :
    Spares x (x.AllSound elements.toList) (fun step => x.AllSound step.value.toList) s
      (elementStep r elements s) :=
  .eat rfl fun _ t => .check fun _ _ => .ite
    (fun _ => .bind (h.value _ t) fun _ _ => .pure fun ⟨helements, hn⟩ => helements.push hn)
    fun _ => .pure id

theorem moreElements (h : r.Spare x) {first : Node} (hfirst : pre → x.Sound first) :
    Spares x pre x.AllSound s (moreElements r first s) :=
  .bind (.repeating (fun hpre => .single (hfirst hpre)) fun elements t => elementStep h elements t)
    fun _ _ => .pure And.right

theorem insideParens (h : r.Spare x) : Sparing x x.SoundParts (insideParens r) := by
  refine fun _ s => .check fun _ _ => .ite (fun _ => ?_) fun _ => ?_
  · exact .expect rfl fun _ _ => .pure fun _ => ⟨rfl, .nil⟩
  · refine .bind (h.value _ s) fun first t => .check fun isTuple _ => ?_
    refine .bind (moreElements h And.right) fun elements u => .expect rfl fun _ v => .pure ?_
    rintro ⟨⟨-, hfirst⟩, helements⟩
    split
    · exact ⟨rfl, helements⟩
    · exact ⟨rfl, .single hfirst⟩

theorem parenthesized (h : r.Spare x) : Sparing x x.Sound (parenthesized r) :=
  fun _ _ => .here (.expect rfl fun _ _ => .bind (.withStructLiterals (insideParens h _ _)) fun _ _ =>
    .close And.right)

theorem fieldInit (h : r.Spare x) : Sparing x x.Sound (fieldInit r) :=
  fun _ _ => .here (.expectName fun _ _ => .expect rfl fun _ t => .bind (h.value _ t) fun _ _ =>
    .close fun ⟨_, hvalue⟩ => ⟨rfl, .single hvalue⟩)

/-- A struct literal opens a brace, and the list of its fields closes it. -/
theorem nameOrStructLiteral (h : r.Spare x) (hk : s.kind = .name) :
    Spares x pre x.Sound s (nameOrStructLiteral r s) := by
  refine .here (.advance hk rfl (.bind (.node fun _ => ⟨rfl, .nil⟩) fun path t => ?_))
  refine .get (.check fun b hb => .look .atStructLiteral fun _ => .ite (fun _ => ?_) fun _ => .pure And.right)
  exact .expect rfl fun _ _ => .bind (.list rfl (fieldInit h)) fun _ _ =>
    .close fun ⟨⟨_, hpath⟩, hfields⟩ => ⟨rfl, .cons hpath hfields⟩

theorem optionalValue (ends : Kind → Bool) (h : r.Spare x) :
    Sparing x (fun value => x.AllSound value.toList) (optionalValue ends r) :=
  fun _ s => .kind fun _ _ => .ite (fun _ => .pure fun _ => .nil) fun _ =>
    .bind (h.value _ s) fun _ _ => .pure fun ⟨_, hvalue⟩ => .single hvalue

theorem primary (h : r.Spare x) : Leading x (primary r) := by
  refine fun _ s => .here (.kind fun k hk => ?_)
  by_cases hfunc : s.kind = .kwFunc
  · obtain rfl := hk.symm.trans hfunc
    exact closure h
  refine .enter (fun hentry => hentry.resolve_right hfunc) ?_
  split
  case h_7 => exact template h
  case h_8 => exact parenthesized h _ s
  case h_9 => exact h.block _ s
  case h_10 =>
    exact .advance hk rfl (.bind (.list rfl h.value) fun _ _ => .close fun ⟨_, hitems⟩ => ⟨rfl, hitems⟩)
  case h_11 => exact .advance hk rfl (.expectName fun _ _ => .close fun _ => ⟨rfl, .nil⟩)
  case h_12 => exact nameOrStructLiteral h hk
  case h_13 => exact closure h
  case h_14 => exact closure h
  case h_15 =>
    exact .advance hk rfl (.bind (h.type _ _) fun _ _ => .expect rfl fun _ _ =>
      .bind (.list rfl h.value) fun _ _ => .close fun ⟨⟨_, htype⟩, hargs⟩ => ⟨rfl, .cons htype hargs⟩)
  case h_16 =>
    exact .advance hk rfl (.bind (optionalValue _ h _ _) fun _ _ => .close fun ⟨_, hvalue⟩ => ⟨rfl, hvalue⟩)
  case h_17 =>
    exact .advance hk rfl (.bind (h.value _ _) fun _ _ => .close fun ⟨_, hvalue⟩ => ⟨rfl, .single hvalue⟩)
  case h_18 => exact .unexpected
  all_goals exact .advance hk rfl (.node fun _ => soundParts_literal _)

/-! ### Operators -/

theorem memberName : Sparing x x.Sound memberName := by
  refine fun _ s => .kind fun k hk => ?_
  split
  · exact .advance hk rfl (.node fun _ => ⟨rfl, .nil⟩)
  · exact .advance hk rfl (.node fun _ => ⟨rfl, .nil⟩)
  · exact .unexpected

theorem suffix? (h : r.Spare x) (target : Node) (s : State) :
    Spares x (x.Sound target) (fun found => ∀ shape ∈ found, x.SoundParts shape) s
      (suffix? r target s) := by
  have some {shape : Shape Node} (hshape : x.SoundParts shape) : ∀ other ∈ some shape, x.SoundParts other := by
    rintro other ⟨⟩
    exact hshape
  refine .kind fun k hk => ?_
  split
  · exact .advance hk rfl (.pure fun htarget => some ⟨rfl, .single htarget⟩)
  · exact .advance hk rfl (.pure fun htarget => some ⟨rfl, .single htarget⟩)
  · exact .advance hk rfl (.bind (memberName _ _) fun _ _ =>
      .pure fun ⟨htarget, hname⟩ => some ⟨rfl, .pair htarget hname⟩)
  · exact .advance hk rfl (.bind (memberName _ _) fun _ _ =>
      .pure fun ⟨htarget, hname⟩ => some ⟨rfl, .pair htarget hname⟩)
  · exact .advance hk rfl (.bind (.list rfl h.value) fun _ _ =>
      .pure fun ⟨htarget, hargs⟩ => some ⟨rfl, .cons htarget hargs⟩)
  · refine .advance hk rfl (.eat rfl fun _ _ => .ite (fun _ => ?_) fun _ => ?_)
    · exact .bind (.list rfl h.value) fun _ _ =>
        .pure fun ⟨htarget, hargs⟩ => some ⟨rfl, .cons htarget hargs⟩
    · exact .pure fun htarget => some ⟨rfl, .single htarget⟩
  · exact .advance hk rfl (.bind (.list rfl h.value) fun _ _ =>
      .pure fun ⟨htarget, hargs⟩ => some ⟨rfl, .cons htarget hargs⟩)
  · exact .advance hk rfl (.bind (h.type _ _) fun _ _ =>
      .pure fun ⟨htarget, htype⟩ => some ⟨rfl, .pair htarget htype⟩)
  · exact .pure fun _ _ hshape => by cases hshape

theorem suffixStep (h : r.Spare x) (start : Range) (target : Node) (s : State) :
    Spares x (x.Sound target) (fun step => x.Sound step.value) s (suffixStep r start target s) := by
  refine .bind (suffix? h target s) fun found t => ?_
  cases found with
  | some shape => exact .bind (.close fun ⟨_, hfound⟩ => hfound shape rfl) fun _ _ => .pure And.right
  | none => exact .pure And.left

theorem suffixed (h : r.Spare x) : Leading x (suffixed r) :=
  fun _ s => .here (.bind (primary h _ s) fun _ _ => .repeating And.right fun target t => suffixStep h _ target t)

theorem prefixed (h : r.Spare x) : Leading x (prefixed r) := by
  refine fun _ s => .kind fun k hk => .ite (fun hrole => ?_) fun _ => suffixed h _ s
  have hfunc : s.kind ≠ .kwFunc := by
    rintro hfunc
    rw [← hk, hfunc] at hrole
    cases hrole
  have hcode : k.isTemplate = false := Kind.isTemplate_of_role (·.roles.prefixOp) hrole rfl
  refine .enter (fun hentry => hentry.resolve_right hfunc) ?_
  exact .here (.advance hk hcode (.bind (h.unary _ _) fun _ _ => .close fun ⟨_, hoperand⟩ =>
    ⟨rfl, .single hoperand⟩))

theorem binaryStep (h : r.Spare x) (limit : Nat) (start : Range) (lhs : Node) (s : State) :
    Spares x (x.Sound lhs) (fun step => x.Sound step.value) s (binaryStep r limit start lhs s) := by
  refine .kind fun k hk => .ite (fun hrole => ?_) fun _ => .pure id
  rw [Bool.and_eq_true] at hrole
  have hcode : k.isTemplate = false := Kind.isTemplate_of_role (·.roles.binary) hrole.1 rfl
  exact .advance hk hcode (.bind (h.operand _ _ _) fun _ _ =>
    .bind (.close fun ⟨hlhs, hrhs⟩ => ⟨rfl, .pair hlhs hrhs⟩) fun _ _ => .pure And.right)

theorem binary (h : r.Spare x) (limit : Nat) : Leading x (binary r limit) :=
  fun _ s => .here (.bind (prefixed h _ s) fun _ _ =>
    .repeating And.right fun lhs t => binaryStep h limit _ lhs t)

theorem assignment (h : r.Spare x) : Leading x (assignment r) := by
  refine fun _ s => .here (.bind (binary h _ _ s) fun target t => .kind fun k hk => ?_)
  refine .ite (fun hrole => ?_) fun _ => .pure And.right
  have hcode : k.isTemplate = false := Kind.isTemplate_of_role (·.roles.assignment) hrole rfl
  exact .advance hk hcode (.bind (h.value _ _) fun _ _ =>
    .close fun ⟨⟨_, htarget⟩, hvalue⟩ => ⟨rfl, .pair htarget hvalue⟩)

theorem middleBranch (h : r.Spare x) : Sparing x (fun branch => x.AllSound branch.toList) (middleBranch r) :=
  fun _ _ => .eat rfl fun _ t => .ite (fun _ => .pure fun _ => .nil) fun _ =>
    .bind (h.value _ t) fun _ _ => .expect rfl fun _ _ => .pure fun ⟨_, hbranch⟩ => .single hbranch

theorem expressionRule (h : r.Spare x) : Leading x (expressionRule r) := by
  refine fun _ s => .here (.bind (assignment h _ s) fun condition t => .kind fun k hk => ?_)
  refine .ite (fun hrole => ?_) fun _ => .pure And.right
  have hcode : k.isTemplate = false := Kind.isTemplate_of_role (·.roles.ternary) hrole rfl
  exact .advance hk hcode (.bind (middleBranch h _ _) fun _ _ => .bind (h.value _ _) fun _ _ =>
    .close fun ⟨⟨⟨_, hcondition⟩, htrue⟩, hfalse⟩ => ⟨rfl, (htrue.cons hcondition).append (.single hfalse)⟩)

end Sparing

end BraceLang.Grammar
