import BraceLang.Proofs.Grammar.Levels

/-! Braces in types and expressions: each of their rules leaves as many open as it finds. -/

namespace BraceLang.Grammar

variable {x : Reading} {r : Rules} {pre : Prop} {d : Nat} {s : State}

/-- A kind that plays a role which braces do not play leaves the level as it is. -/
theorem level?_of_role (role : Kind → Bool) {k : Kind} (h : role k = true) (hopen : role .lBrace = false)
    (hclose : role .rBrace = false) : Kind.level? d [k] = some d := by
  apply Kind.level?_of_ne
  · rintro rfl
    rw [h] at hopen
    cases hopen
  · rintro rfl
    rw [h] at hclose
    cases hclose

namespace Steady

/-! ### Types -/

theorem arraySize (h : r.Steady x) : Steady x (fun size => x.AllSound size.toList) (arraySize r) :=
  fun _ d _ => .ite (fun _ => .pure fun _ => .nil) fun _ =>
    .bind (.withStructLiterals (h.expression _ d)) fun _ _ => .pure fun ⟨_, hsize⟩ => .single hsize

theorem typeSuffixStep (h : r.Steady x) (start : Range) (type : Node) (s : State) :
    Levels x (x.Sound type) d d (fun step => x.Sound step.value) s (typeSuffixStep r start type s) := by
  refine .eat rfl fun _ _ => .ite (fun _ => ?_) fun _ => .eat rfl fun _ _ => .ite (fun _ => ?_) fun _ => ?_
  · exact .bind (arraySize h _ d _) fun _ _ => .expect rfl fun _ _ =>
      .bind (.close fun ⟨htype, hsize⟩ => ⟨rfl, .cons htype hsize⟩) fun _ _ => .pure And.right
  · exact .bind (.close fun htype => ⟨rfl, .single htype⟩) fun _ _ => .pure And.right
  · exact .pure id

theorem pathRest : Steady x (fun _ => True) pathRest := by
  refine fun _ d s => .seq (.repeating (fun _ => trivial) fun names t => ?_) fun _ _ => .pure fun _ => trivial
  refine .check fun b hb => .look .peek fun k => .ite (fun hk => ?_) fun _ => .pure id
  rw [Bool.and_eq_true] at hk
  exact .advance (hb hk.1) rfl (.expectName fun _ _ => .pure fun _ => trivial)

theorem namedType (h : r.Steady x) : Steady x x.SoundParts (namedType r) := by
  refine fun _ d s => .expectName fun _ t => .seq (pathRest _ d t) fun _ u => ?_
  refine .check fun b hb => .look .atArraySuffix fun suffix => .ite (fun hk => ?_) fun _ => ?_
  · rw [Bool.and_eq_true] at hk
    exact .advance (hb hk.1) rfl (.bind (.list rfl h.type) fun _ _ => .pure fun ⟨_, hargs⟩ => ⟨rfl, hargs⟩)
  · exact .pure fun _ => ⟨rfl, .nil⟩

theorem pointee (h : r.Steady x) : Steady x x.SoundParts (pointee r) :=
  fun _ d _ => .eat rfl fun _ t => .bind (h.type _ d t) fun _ _ => .pure fun ⟨_, htype⟩ => ⟨rfl, .single htype⟩

theorem baseType (h : r.Steady x) : Steady x x.SoundParts (baseType r) := by
  refine fun _ d s => .kind fun k hk => .ite (fun hprim => ?_) fun _ => ?_
  · exact .advance hk (level?_of_role (·.roles.primitive) hprim rfl rfl) (.pure fun _ => ⟨rfl, .nil⟩)
  split
  · exact namedType h _ d s
  · exact .advance hk rfl (.bind (.list rfl h.type) fun _ _ => .pure fun ⟨_, htypes⟩ => ⟨rfl, htypes⟩)
  · exact .advance hk rfl (.expect rfl fun _ _ => .bind (.list rfl h.type) fun _ _ =>
      .bind (.optionalAfter rfl h.type) fun _ _ =>
        .pure fun ⟨⟨_, hparams⟩, hresult⟩ => ⟨rfl, hparams.append hresult⟩)
  · exact .advance hk rfl (pointee h _ d _)
  · exact .advance hk rfl (.here (.bind (pointee h _ d _) fun _ _ =>
      .bind (.close And.right) fun _ _ => .pure fun ⟨_, htype⟩ => ⟨rfl, .single htype⟩))
  · exact .unexpected

theorem typeRule (h : r.Steady x) : Steady x x.Sound (typeRule r) :=
  fun _ d s => .here (.bind (baseType h _ d s) fun _ _ => .bind (.close And.right) fun _ _ =>
    .repeating And.right fun type t => typeSuffixStep h _ type t)

/-! ### Signatures and closures -/

theorem parameter (h : r.Steady x) : Steady x x.Sound (parameter r) :=
  fun _ _ _ => .here (.expectName fun _ _ => .bind (.optionalAfter rfl h.type) fun _ _ =>
    .bind (.optionalAfter rfl h.expression) fun _ _ =>
      .close fun ⟨⟨_, htype⟩, hdefault⟩ => ⟨rfl, htype.append hdefault⟩)

theorem callSignature (h : r.Steady x) : Steady x x.Sound (callSignature r) :=
  fun _ _ _ => .here (.expect rfl fun _ _ => .bind (.list rfl (parameter h)) fun _ _ =>
    .bind (.optionalAfter rfl h.type) fun _ _ =>
      .close fun ⟨⟨_, hparams⟩, hresult⟩ => ⟨rfl, hparams.append hresult⟩)

theorem takePendingAsync : Steady x (fun _ => True) takePendingAsync :=
  fun _ _ s => .across (.setPendingAsync s none) (.of_ahead_eq rfl) (.pure fun _ => trivial)

theorem closureStart : Steady x (fun _ => True) closureStart := by
  refine fun _ d s => .seq (takePendingAsync _ d s) fun pending t => ?_
  cases pending with
  | some range => exact .pure fun _ => trivial
  | none => exact .here (.eat rfl fun _ _ => .pure fun _ => trivial)

theorem closureBody (h : r.Steady x) : Steady x x.Sound (closureBody r) :=
  fun _ d _ => .eat rfl fun _ t => .ite (fun _ => h.expression _ d t) fun _ =>
    .check fun _ _ => .ite (fun _ => h.block _ d t) fun _ => .unexpected

theorem closure (h : r.Steady x) : Steady x x.Sound (closure r) :=
  fun _ d s => .seq (closureStart _ d s) fun _ _ => .expect rfl fun _ t =>
    .bind (callSignature h _ d t) fun _ u => .bind (closureBody h _ d u) fun _ _ =>
      .close fun ⟨⟨_, hsignature⟩, hbody⟩ => ⟨rfl, .pair hsignature hbody⟩

/-! ### Primaries -/

theorem soundParts_literal (token : Token) : x.SoundParts (literal token) := by
  unfold literal
  split <;> exact ⟨rfl, .nil⟩

theorem templateStep (h : r.Steady x) (parts : Array Node) (s : State) :
    Levels x (x.AllSound parts.toList) d d (fun step => x.AllSound step.value.toList) s
      (templateStep r parts s) := by
  refine .kind fun k hk => ?_
  split
  · exact .advance hk rfl (.pure id)
  · exact .advance hk rfl (.ite (fun _ => .pure id) fun _ =>
      .bind (.node fun _ => ⟨rfl, .nil⟩) fun _ _ => .pure fun ⟨hparts, hn⟩ => hparts.push hn)
  · exact .unexpected
  · exact .bind (.withStructLiterals (h.expression _ d)) fun _ _ => .pure fun ⟨hparts, hn⟩ => hparts.push hn

theorem template (h : r.Steady x) : Steady x x.Sound (template r) :=
  fun _ _ _ => .here (.expect rfl fun _ _ =>
    .bind (.repeating (fun _ => .nil) fun parts t => templateStep h parts t) fun _ _ =>
      .close fun ⟨_, hparts⟩ => ⟨rfl, hparts⟩)

theorem elementStep (h : r.Steady x) (elements : Array Node) (s : State) :
    Levels x (x.AllSound elements.toList) d d (fun step => x.AllSound step.value.toList) s
      (elementStep r elements s) :=
  .eat rfl fun _ t => .check fun _ _ => .ite
    (fun _ => .bind (h.expression _ d t) fun _ _ => .pure fun ⟨helements, hn⟩ => helements.push hn)
    fun _ => .pure id

theorem moreElements (h : r.Steady x) {first : Node} (hfirst : pre → x.Sound first) :
    Levels x pre d d x.AllSound s (moreElements r first s) :=
  .bind (.repeating (fun hpre => .single (hfirst hpre)) fun elements t => elementStep h elements t)
    fun _ _ => .pure And.right

theorem insideParens (h : r.Steady x) : Steady x x.SoundParts (insideParens r) := by
  refine fun _ d s => .check fun _ _ => .ite (fun _ => ?_) fun _ => ?_
  · exact .expect rfl fun _ _ => .pure fun _ => ⟨rfl, .nil⟩
  · refine .bind (h.expression _ d s) fun first t => .check fun isTuple _ => ?_
    refine .bind (moreElements h And.right) fun elements u => .expect rfl fun _ v => .pure ?_
    rintro ⟨⟨-, hfirst⟩, helements⟩
    split
    · exact ⟨rfl, helements⟩
    · exact ⟨rfl, .single hfirst⟩

theorem parenthesized (h : r.Steady x) : Steady x x.Sound (parenthesized r) :=
  fun _ d _ => .here (.expect rfl fun _ _ => .bind (.withStructLiterals (insideParens h _ d)) fun _ _ =>
    .close And.right)

theorem fieldInit (h : r.Steady x) : Steady x x.Sound (fieldInit r) :=
  fun _ d _ => .here (.expectName fun _ _ => .expect rfl fun _ t => .bind (h.expression _ d t) fun _ _ =>
    .close fun ⟨_, hvalue⟩ => ⟨rfl, .single hvalue⟩)

/-- A struct literal opens a brace, and the list of its fields closes it. -/
theorem nameOrStructLiteral (h : r.Steady x) (hk : s.kind = .name) :
    Levels x pre d d x.Sound s (nameOrStructLiteral r s) := by
  refine .here (.advance hk rfl (.bind (.node fun _ => ⟨rfl, .nil⟩) fun path t => ?_))
  refine .get (.check fun b hb => .look .atStructLiteral fun _ => .ite (fun _ => ?_) fun _ => .pure And.right)
  exact .expect rfl fun _ _ => .bind (.list rfl (fieldInit h)) fun _ _ =>
    .close fun ⟨⟨_, hpath⟩, hfields⟩ => ⟨rfl, .cons hpath hfields⟩

theorem optionalValue (ends : Kind → Bool) (h : r.Steady x) :
    Steady x (fun value => x.AllSound value.toList) (optionalValue ends r) :=
  fun _ d s => .kind fun _ _ => .ite (fun _ => .pure fun _ => .nil) fun _ =>
    .bind (h.expression _ d s) fun _ _ => .pure fun ⟨_, hvalue⟩ => .single hvalue

theorem primary (h : r.Steady x) : Steady x x.Sound (primary r) := by
  refine fun _ d s => .here (.kind fun k hk => ?_)
  split
  case h_7 => exact template h _ d s
  case h_8 => exact parenthesized h _ d s
  case h_9 => exact h.block _ d s
  case h_10 =>
    exact .advance hk rfl (.bind (.list rfl h.expression) fun _ _ => .close fun ⟨_, hitems⟩ => ⟨rfl, hitems⟩)
  case h_11 => exact .advance hk rfl (.expectName fun _ _ => .close fun _ => ⟨rfl, .nil⟩)
  case h_12 => exact nameOrStructLiteral h hk
  case h_13 => exact closure h _ d s
  case h_14 => exact closure h _ d s
  case h_15 =>
    exact .advance hk rfl (.bind (h.type _ d _) fun _ _ => .expect rfl fun _ _ =>
      .bind (.list rfl h.expression) fun _ _ => .close fun ⟨⟨_, htype⟩, hargs⟩ => ⟨rfl, .cons htype hargs⟩)
  case h_16 =>
    exact .advance hk rfl (.bind (optionalValue _ h _ d _) fun _ _ => .close fun ⟨_, hvalue⟩ => ⟨rfl, hvalue⟩)
  case h_17 =>
    exact .advance hk rfl (.bind (h.expression _ d _) fun _ _ =>
      .close fun ⟨_, hvalue⟩ => ⟨rfl, .single hvalue⟩)
  case h_18 => exact .unexpected
  all_goals exact .advance hk rfl (.node fun _ => soundParts_literal _)

/-! ### Operators -/

theorem memberName : Steady x x.Sound memberName := by
  refine fun _ d s => .kind fun k hk => ?_
  split
  · exact .advance hk rfl (.node fun _ => ⟨rfl, .nil⟩)
  · exact .advance hk rfl (.node fun _ => ⟨rfl, .nil⟩)
  · exact .unexpected

theorem suffix? (h : r.Steady x) (target : Node) (s : State) :
    Levels x (x.Sound target) d d (fun found => ∀ shape ∈ found, x.SoundParts shape) s
      (suffix? r target s) := by
  have some {shape : Shape Node} (hshape : x.SoundParts shape) : ∀ other ∈ some shape, x.SoundParts other := by
    rintro other ⟨⟩
    exact hshape
  refine .kind fun k hk => ?_
  split
  · exact .advance hk rfl (.pure fun htarget => some ⟨rfl, .single htarget⟩)
  · exact .advance hk rfl (.pure fun htarget => some ⟨rfl, .single htarget⟩)
  · exact .advance hk rfl (.bind (memberName _ d _) fun _ _ =>
      .pure fun ⟨htarget, hname⟩ => some ⟨rfl, .pair htarget hname⟩)
  · exact .advance hk rfl (.bind (memberName _ d _) fun _ _ =>
      .pure fun ⟨htarget, hname⟩ => some ⟨rfl, .pair htarget hname⟩)
  · exact .advance hk rfl (.bind (.list rfl h.expression) fun _ _ =>
      .pure fun ⟨htarget, hargs⟩ => some ⟨rfl, .cons htarget hargs⟩)
  · refine .advance hk rfl (.eat rfl fun _ _ => .ite (fun _ => ?_) fun _ => ?_)
    · exact .bind (.list rfl h.expression) fun _ _ =>
        .pure fun ⟨htarget, hargs⟩ => some ⟨rfl, .cons htarget hargs⟩
    · exact .pure fun htarget => some ⟨rfl, .single htarget⟩
  · exact .advance hk rfl (.bind (.list rfl h.expression) fun _ _ =>
      .pure fun ⟨htarget, hargs⟩ => some ⟨rfl, .cons htarget hargs⟩)
  · exact .advance hk rfl (.bind (h.type _ d _) fun _ _ =>
      .pure fun ⟨htarget, htype⟩ => some ⟨rfl, .pair htarget htype⟩)
  · exact .pure fun _ _ hshape => by cases hshape

theorem suffixStep (h : r.Steady x) (start : Range) (target : Node) (s : State) :
    Levels x (x.Sound target) d d (fun step => x.Sound step.value) s (suffixStep r start target s) := by
  refine .bind (suffix? h target s) fun found t => ?_
  cases found with
  | some shape => exact .bind (.close fun ⟨_, hfound⟩ => hfound shape rfl) fun _ _ => .pure And.right
  | none => exact .pure And.left

theorem suffixed (h : r.Steady x) : Steady x x.Sound (suffixed r) :=
  fun _ d s => .here (.bind (primary h _ d s) fun _ _ =>
    .repeating And.right fun target t => suffixStep h _ target t)

theorem prefixed (h : r.Steady x) : Steady x x.Sound (prefixed r) := by
  refine fun _ d s => .kind fun k hk => .ite (fun hrole => ?_) fun _ => suffixed h _ d s
  have hlevel : Kind.level? d [k] = some d := level?_of_role (·.roles.prefixOp) hrole rfl rfl
  exact .here (.advance hk hlevel (.bind (h.unary _ d _) fun _ _ =>
    .close fun ⟨_, hoperand⟩ => ⟨rfl, .single hoperand⟩))

theorem binaryStep (h : r.Steady x) (limit : Nat) (start : Range) (lhs : Node) (s : State) :
    Levels x (x.Sound lhs) d d (fun step => x.Sound step.value) s (binaryStep r limit start lhs s) := by
  refine .kind fun k hk => .ite (fun hrole => ?_) fun _ => .pure id
  rw [Bool.and_eq_true] at hrole
  have hlevel : Kind.level? d [k] = some d := level?_of_role (·.roles.binary) hrole.1 rfl rfl
  exact .advance hk hlevel (.bind (h.operand _ _ d _) fun _ _ =>
    .bind (.close fun ⟨hlhs, hrhs⟩ => ⟨rfl, .pair hlhs hrhs⟩) fun _ _ => .pure And.right)

theorem binary (h : r.Steady x) (limit : Nat) : Steady x x.Sound (binary r limit) :=
  fun _ d s => .here (.bind (prefixed h _ d s) fun _ _ =>
    .repeating And.right fun lhs t => binaryStep h limit _ lhs t)

theorem assignment (h : r.Steady x) : Steady x x.Sound (assignment r) := by
  refine fun _ d s => .here (.bind (binary h _ _ d s) fun target t => .kind fun k hk => ?_)
  refine .ite (fun hrole => ?_) fun _ => .pure And.right
  have hlevel : Kind.level? d [k] = some d := level?_of_role (·.roles.assignment) hrole rfl rfl
  exact .advance hk hlevel (.bind (h.expression _ d _) fun _ _ =>
    .close fun ⟨⟨_, htarget⟩, hvalue⟩ => ⟨rfl, .pair htarget hvalue⟩)

theorem middleBranch (h : r.Steady x) : Steady x (fun branch => x.AllSound branch.toList) (middleBranch r) :=
  fun _ d _ => .eat rfl fun _ t => .ite (fun _ => .pure fun _ => .nil) fun _ =>
    .bind (h.expression _ d t) fun _ _ => .expect rfl fun _ _ => .pure fun ⟨_, hbranch⟩ => .single hbranch

theorem expressionRule (h : r.Steady x) : Steady x x.Sound (expressionRule r) := by
  refine fun _ d s => .here (.bind (assignment h _ d s) fun condition t => .kind fun k hk => ?_)
  refine .ite (fun hrole => ?_) fun _ => .pure And.right
  have hlevel : Kind.level? d [k] = some d := level?_of_role (·.roles.ternary) hrole rfl rfl
  exact .advance hk hlevel (.bind (middleBranch h _ d _) fun _ _ => .bind (h.expression _ d _) fun _ _ =>
    .close fun ⟨⟨⟨_, hcondition⟩, htrue⟩, hfalse⟩ => ⟨rfl, (htrue.cons hcondition).append (.single hfalse)⟩)

end Steady

end BraceLang.Grammar
