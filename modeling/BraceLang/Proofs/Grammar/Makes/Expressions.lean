import BraceLang.Proofs.Grammar.Makes

/-! What the rules for types and expressions make: types for types, and values for expressions. -/

namespace BraceLang.Grammar

variable {r : Rules} {s o : State}

/-! ### Types -/

theorem Produces.arraySize (h : r.Produce) :
    Produces (fun size => each Slot.value size.toList) (fun _ => True) (arraySize r) :=
  fun _ => .check fun _ _ => .ite (fun _ => .pure trivial rfl) fun _ =>
    .bind (.withStructLiterals fun _ => h.expression.gives) fun _ _ _ => .pure trivial rfl

theorem typeSuffixStep_gives (h : r.Produce) (start : Range) (type : Node) (s : State) :
    Gives o [(.type, type)] (fun step => [(.type, step.value)]) (fun _ => True) s
      (typeSuffixStep r start type s) := by
  refine .eat fun _ _ _ => .ite (fun _ => ?_) fun _ => .eat fun _ _ _ => .ite (fun _ => ?_) fun _ => ?_
  · exact .rule (.arraySize h) fun _ _ _ => .expect fun _ _ =>
      .bind (.close trivial rfl rfl rfl) fun _ _ _ => .pure trivial rfl
  · exact .bind (.close trivial rfl rfl rfl) fun _ _ _ => .pure trivial rfl
  · exact .pure trivial rfl

theorem Produces.pathRest : Produces (fun _ => []) (fun _ => True) pathRest := by
  intro s
  have hnames : Gives s [] (fun _ => []) (fun _ => True) s (repeating #[] pathStep s) := by
    refine .repeating trivial rfl fun names t _ => .check fun _ _ => .look .peek fun _ => ?_
    exact .ite (fun _ => .advance (.expectName fun _ _ => .pure trivial rfl)) fun _ => .pure trivial rfl
  exact .bind hnames fun _ _ _ => .pure trivial rfl

theorem Forms.namedType (h : r.Produce) : Forms .type (namedType r) := by
  refine fun s => .expectName fun _ _ => .skip .pathRest fun _ _ _ => .check fun _ _ => ?_
  refine .look .atArraySuffix fun _ => .ite (fun _ => ?_) fun _ => .pure ⟨trivial, rfl, rfl⟩ rfl
  exact .advance (.rule (.list h.type) fun _ _ _ => .pure ⟨trivial, rfl, rfl⟩ rfl)

theorem Forms.pointee (h : r.Produce) : Forms .type (pointee r) :=
  fun _ => .eat fun _ _ _ => .rule h.type fun _ _ _ => .pure ⟨trivial, rfl, rfl⟩ rfl

theorem Forms.baseType (h : r.Produce) : Forms .type (baseType r) := by
  refine fun s => .kind fun k _ => .ite (fun hprim => ?_) fun _ => ?_
  · exact .advance (.pure ⟨hprim, rfl, rfl⟩ rfl)
  split
  · exact namedType h s
  · exact .advance (.rule (.list h.type) fun _ _ _ => .pure ⟨trivial, rfl, rfl⟩ rfl)
  · exact .advance (.expect fun _ _ => .rule (.list h.type) fun _ _ _ =>
      .rule (.optionalAfter h.type) fun _ _ _ => .pure ⟨trivial, rfl, rfl⟩ rfl)
  · exact .advance (pointee h).gives
  · exact .advance (.here (.rule (pointee h) fun _ _ ⟨hlawful, hplain, hslot⟩ =>
      .bind (.close hlawful rfl hplain hslot) fun _ _ _ => .pure ⟨trivial, rfl, rfl⟩ rfl))
  · exact .unexpected

theorem Fills.typeRule (h : r.Produce) : Fills .type (typeRule r) :=
  fun _ => .here (.rule (Forms.baseType h) fun _ _ ⟨hlawful, hplain, hslot⟩ =>
    .bind (.close hlawful rfl hplain hslot) fun _ _ _ =>
      .repeating trivial rfl fun type t _ => typeSuffixStep_gives h _ type t)

/-! ### Signatures and closures -/

theorem Fills.parameter (h : r.Produce) : Fills .param (parameter r) :=
  fun _ => .here (.expectName fun _ _ => .rule (.optionalAfter h.type) fun _ _ _ =>
    .rule (.optionalAfter h.expression) fun _ _ _ => .close trivial rfl rfl rfl)

theorem Fills.callSignature (h : r.Produce) : Fills .signature (callSignature r) :=
  fun _ => .here (.expect fun _ _ => .rule (.list (parameter h)) fun _ _ _ =>
    .rule (.optionalAfter h.type) fun _ _ _ => .close trivial rfl rfl rfl)

theorem Produces.takePendingAsync : Produces (fun _ => []) (fun _ => True) takePendingAsync :=
  fun s => .across (.setPendingAsync s none) (.pure trivial rfl)

theorem Produces.closureStart : Produces (fun _ => []) (fun _ => True) closureStart := by
  refine fun s => .skip .takePendingAsync fun pending _ _ => ?_
  cases pending with
  | some range => exact .pure trivial rfl
  | none => exact .here (.eat fun _ _ _ => .pure trivial rfl)

theorem value_of_block {shape : Shape Node} (h : Slot.block.holds shape = true) :
    Slot.value.holds shape = true := by
  cases shape <;> first | rfl | cases h

theorem Fills.closureBody (h : r.Produce) : Fills .value (closureBody r) :=
  fun _ => .eat fun _ _ _ => .ite (fun _ => h.expression.gives) fun _ => .check fun _ _ =>
    .ite (fun _ => (h.block.recast fun _ => value_of_block).gives) fun _ => .unexpected

theorem Fills.closure (h : r.Produce) : Fills .value (closure r) :=
  fun _ => .skip .closureStart fun _ _ _ => .expect fun _ _ => .rule (callSignature h) fun _ _ _ =>
    .rule (closureBody h) fun _ _ _ => .close trivial rfl rfl rfl

/-! ### Primaries -/

theorem Fills.literal (token : Token) : Fills .value (node (literal token) token.range) := by
  unfold Grammar.literal
  split <;> exact .leaf trivial rfl rfl rfl

theorem templateStep_gives (h : r.Produce) (parts : Array Node) (s : State) :
    Gives o (each Slot.value parts.toList) (fun step => each Slot.value step.value.toList) (fun _ => True) s
      (templateStep r parts s) := by
  refine .kind fun k _ => ?_
  split
  · exact .advance (.pure trivial rfl)
  · refine .advance (.ite (fun _ => .pure trivial rfl) fun _ => ?_)
    have htext : Fills .value (node (.str s.current.text) s.current.range) := .leaf trivial rfl rfl rfl
    exact .rule htext fun _ _ _ => .pure trivial (by simp [ForInStep.value])
  · exact .unexpected
  · exact .bind (.withStructLiterals fun _ => h.expression.gives) fun _ _ _ =>
      .pure trivial (by simp [ForInStep.value])

theorem Fills.template (h : r.Produce) : Fills .value (template r) := by
  refine fun s => .here (.expect fun _ t => ?_)
  have hparts : Gives s [] (fun parts : Array Node => each Slot.value parts.toList) (fun _ => True) t
      (repeating #[] (templateStep r) t) :=
    .repeating trivial rfl fun parts u _ => templateStep_gives h parts u
  exact .bind hparts fun _ _ _ => .close trivial rfl rfl rfl

theorem elementStep_gives (h : r.Produce) (elements : Array Node) (s : State) :
    Gives o (each Slot.value elements.toList) (fun step => each Slot.value step.value.toList) (fun _ => True) s
      (elementStep r elements s) :=
  .eat fun _ _ _ => .check fun _ _ => .ite
    (fun _ => .rule h.expression fun _ _ _ => .pure trivial (by simp [ForInStep.value]))
    fun _ => .pure trivial rfl

theorem moreElements_gives (h : r.Produce) (first : Node) (s : State) :
    Gives o [(.value, first)] (each Slot.value ·) (fun _ => True) s (moreElements r first s) := by
  have helements : Gives o [(.value, first)] (fun elements : Array Node => each Slot.value elements.toList)
      (fun _ => True) s (repeating #[first] (elementStep r) s) :=
    .repeating trivial rfl fun elements t _ => elementStep_gives h elements t
  exact .bind helements fun _ _ _ => .pure trivial rfl

theorem Forms.insideParens (h : r.Produce) : Forms .value (insideParens r) := by
  refine fun s => .check fun _ _ => .ite (fun _ => ?_) fun _ => ?_
  · exact .expect fun _ _ => .pure ⟨trivial, rfl, rfl⟩ rfl
  refine .rule h.expression fun first t _ => .check fun isTuple hcomma => ?_
  cases isTuple with
  | true =>
    refine .bind (moreElements_gives h first t) fun elements u _ => .expect fun _ _ => ?_
    exact .pure ⟨trivial, rfl, rfl⟩ rfl
  | false =>
    have honly : moreElements r first t = .ok [first] t :=
      moreElements_of_ne_comma fun hk => Bool.false_ne_true (hcomma.mpr hk)
    rw [bind_of_ok honly]
    exact .expect fun _ _ => .pure ⟨trivial, rfl, rfl⟩ rfl

theorem Fills.parenthesized (h : r.Produce) : Fills .value (parenthesized r) :=
  fun _ => .here (.expect fun _ _ => .bind (.withStructLiterals fun _ => (Forms.insideParens h).gives)
    fun _ _ ⟨hlawful, hplain, hslot⟩ => .close hlawful rfl hplain hslot)

theorem Fills.fieldInit (h : r.Produce) : Fills .fieldInit (fieldInit r) :=
  fun _ => .here (.expectName fun _ _ => .expect fun _ _ => .rule h.expression fun _ _ _ =>
    .close trivial rfl rfl rfl)

theorem value_of_name {shape : Shape Node} (h : Slot.name.holds shape = true) :
    Slot.value.holds shape = true := by
  cases shape <;> first | rfl | cases h

theorem Fills.nameOrStructLiteral (h : r.Produce) : Fills .value (nameOrStructLiteral r) := by
  intro s
  have hname : Fills .name (node (.name s.current.text) s.current.range) := .leaf trivial rfl rfl rfl
  refine .here (.advance (.rule hname fun path t _ => .get (.check fun _ _ => ?_)))
  refine .look .atStructLiteral fun _ => .ite (fun _ => ?_) fun _ => .promote fun _ => value_of_name
  exact .expect fun _ _ => .rule (.list (fieldInit h)) fun _ _ _ => .close trivial rfl rfl rfl

theorem Produces.optionalValue (ends : Kind → Bool) (h : r.Produce) :
    Produces (fun value => each Slot.value value.toList) (fun _ => True) (optionalValue ends r) :=
  fun _ => .kind fun _ _ => .ite (fun _ => .pure trivial rfl) fun _ =>
    .rule h.expression fun _ _ _ => .pure trivial rfl

theorem Fills.primary (h : r.Produce) : Fills .value (primary r) := by
  refine fun s => .here (.kind fun k _ => ?_)
  split
  case h_7 => exact template h s
  case h_8 => exact parenthesized h s
  case h_9 => exact (h.block.recast fun _ => value_of_block) s
  case h_10 => exact .advance (.rule (.list h.expression) fun _ _ _ => .close trivial rfl rfl rfl)
  case h_11 => exact .advance (.expectName fun _ _ => .close trivial rfl rfl rfl)
  case h_12 => exact nameOrStructLiteral h s
  case h_13 => exact closure h s
  case h_14 => exact closure h s
  case h_15 =>
    exact .advance (.rule h.type fun _ _ _ => .expect fun _ _ => .rule (.list h.expression) fun _ _ _ =>
      .close trivial rfl rfl rfl)
  case h_16 => exact .advance (.rule (.optionalValue _ h) fun _ _ _ => .close trivial rfl rfl rfl)
  case h_17 => exact .advance (.rule h.expression fun _ _ _ => .close trivial rfl rfl rfl)
  case h_18 => exact .unexpected
  all_goals exact .advance (literal _).gives

/-! ### Operators -/

theorem Fills.memberName : Fills .selector memberName := by
  refine fun s => .kind fun k _ => ?_
  split
  · exact .advance (.node trivial rfl rfl rfl)
  · exact .advance (.node trivial rfl rfl rfl)
  · exact .unexpected

/-- A suffix, if there is one, makes a construct out of the expression before it. -/
theorem suffix?_gives (h : r.Produce) (target : Node) (s : State) :
    Gives o [(.value, target)] (fun found => (found.map Shape.slots).getD [(.value, target)])
      (fun found => ∀ shape ∈ found, shape.Lawful ∧ shape.isJump = false ∧ Slot.value.holds shape = true) s
      (suffix? r target s) := by
  have fine {shape : Shape Node} (hlawful : shape.Lawful) (hplain : shape.isJump = false)
      (hslot : Slot.value.holds shape = true) : ∀ other ∈ some shape,
      other.Lawful ∧ other.isJump = false ∧ Slot.value.holds other = true := by
    rintro other ⟨⟩
    exact ⟨hlawful, hplain, hslot⟩
  refine .kind fun k _ => ?_
  split
  · exact .advance (.pure (fine rfl rfl rfl) rfl)
  · exact .advance (.pure (fine rfl rfl rfl) rfl)
  · exact .advance (.rule Fills.memberName fun _ _ _ => .pure (fine trivial rfl rfl) rfl)
  · exact .advance (.rule Fills.memberName fun _ _ _ => .pure (fine trivial rfl rfl) rfl)
  · exact .advance (.rule (.list h.expression) fun _ _ _ => .pure (fine trivial rfl rfl) rfl)
  · refine .advance (.eat fun _ _ _ => .ite (fun _ => ?_) fun _ => ?_)
    · exact .rule (.list h.expression) fun _ _ _ => .pure (fine trivial rfl rfl) rfl
    · exact .pure (fine trivial rfl rfl) rfl
  · exact .advance (.rule (.list h.expression) fun _ _ _ => .pure (fine trivial rfl rfl) rfl)
  · exact .advance (.rule h.type fun _ _ _ => .pure (fine trivial rfl rfl) rfl)
  · exact .pure (fun _ hshape => by cases hshape) rfl

theorem suffixStep_gives (h : r.Produce) (start : Range) (target : Node) (s : State) :
    Gives o [(.value, target)] (fun step => [(.value, step.value)]) (fun _ => True) s
      (suffixStep r start target s) := by
  refine .bind (suffix?_gives h target s) fun found t hfound => ?_
  cases found with
  | some shape =>
    obtain ⟨hlawful, hplain, hslot⟩ := hfound shape rfl
    exact .bind (.close hlawful rfl hplain hslot) fun _ _ _ => .pure trivial rfl
  | none => exact .pure trivial rfl

theorem Fills.suffixed (h : r.Produce) : Fills .value (suffixed r) :=
  fun _ => .here (.rule (primary h) fun _ _ _ =>
    .repeating trivial rfl fun target t _ => suffixStep_gives h _ target t)

theorem Fills.prefixed (h : r.Produce) : Fills .value (prefixed r) :=
  fun s => .kind fun _ _ => .ite
    (fun hop => .here (.advance (.rule h.unary fun _ _ _ => .close hop rfl rfl rfl)))
    fun _ => suffixed h s

theorem binaryStep_gives (h : r.Produce) (limit : Nat) (start : Range) (lhs : Node) (s : State) :
    Gives o [(.value, lhs)] (fun step => [(.value, step.value)]) (fun _ => True) s
      (binaryStep r limit start lhs s) := by
  refine .kind fun k _ => .ite (fun hop => ?_) fun _ => .pure trivial rfl
  rw [Bool.and_eq_true] at hop
  exact .advance (.rule (h.operand _) fun _ _ _ =>
    .bind (.close hop.1 rfl rfl rfl) fun _ _ _ => .pure trivial rfl)

theorem Fills.binary (h : r.Produce) (limit : Nat) : Fills .value (binary r limit) :=
  fun _ => .here (.rule (prefixed h) fun _ _ _ =>
    .repeating trivial rfl fun lhs t _ => binaryStep_gives h limit _ lhs t)

theorem Fills.assignment (h : r.Produce) : Fills .value (assignment r) :=
  fun _ => .here (.rule (binary h _) fun _ _ _ => .kind fun _ _ => .ite
    (fun hop => .advance (.rule h.expression fun _ _ _ => .close hop rfl rfl rfl))
    fun _ => .pure trivial rfl)

theorem Produces.middleBranch (h : r.Produce) :
    Produces (fun branch => each Slot.value branch.toList) (fun _ => True) (middleBranch r) :=
  fun _ => .eat fun _ _ _ => .ite (fun _ => .pure trivial rfl) fun _ =>
    .rule h.expression fun _ _ _ => .expect fun _ _ => .pure trivial rfl

theorem Fills.expressionRule (h : r.Produce) : Fills .value (expressionRule r) :=
  fun _ => .here (.rule (assignment h) fun _ _ _ => .kind fun _ _ => .ite
    (fun _ => .advance (.rule (.middleBranch h) fun _ _ _ => .rule h.expression fun _ _ _ =>
      .close trivial rfl rfl rfl))
    fun _ => .pure trivial rfl)

end BraceLang.Grammar
