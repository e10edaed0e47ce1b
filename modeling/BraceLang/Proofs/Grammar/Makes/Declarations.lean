import BraceLang.Proofs.Grammar.Makes.Expressions

/-! What the rules for declarations make. Attributes are read before it is known what they belong to, so a
    declaration finds them at hand. -/

namespace BraceLang

theorem Pattern.names_ne_nil (p : Pattern) : p.names ≠ [] := by
  cases p <;> simp [names]

theorem Pattern.length_names {p : Pattern} (h : p.isTuple = false) : p.names.length = 1 := by
  cases p with
  | single name => rfl
  | tuple first others => cases h

theorem Kind.overloads_of_ne_one {k : Kind} {n : Nat} (h : n ≠ 1) : k.overloads n = k.overloads 0 := by
  unfold overloads
  split <;> first | rfl | contradiction | simp_all

theorem Kind.mem_overloads_unary {k : Kind} {name : String} (h : k.unaryOperatorName? = some name) :
    name ∈ k.overloads 1 := by
  have hlist : name ∈ k.unaryOperatorName?.toList := Option.mem_toList.mpr h
  cases k <;> first | exact hlist | cases h

theorem Kind.mem_overloads_of_unary_none {k : Kind} {name : String} (h : k.unaryOperatorName? = none)
    (hname : name ∈ k.overloads 0) : name ∈ k.overloads 1 := by
  cases k <;> first | exact hname | cases h

namespace Grammar

variable {r : Rules} {s o : State} {slot : Slot}

/-! ### Attributes and generic parameters -/

theorem Produces.attributes (h : r.Produce) : Produces (each Slot.value) (fun _ => True) (attributes r) := by
  refine fun s => .repeating trivial rfl fun attrs t _ => .eat fun _ _ _ => ?_
  refine .ite (fun _ => .expect fun _ _ => .rule (.list h.expression) fun more _ _ => ?_) fun _ => .pure trivial rfl
  exact .pure trivial each_append

theorem barStep_gives (h : r.Produce) (types : Array Node) (s : State) :
    Gives o (each Slot.type types.toList) (fun step => each Slot.type step.value.toList) (fun _ => True) s
      (barStep r types s) := by
  refine .rule h.type fun _ _ _ => .eat fun _ _ _ => .ite (fun _ => ?_) fun _ => ?_
  · exact .pure trivial (by simp [ForInStep.value])
  · exact .pure trivial (by simp [ForInStep.value])

theorem Produces.constraints (h : r.Produce) : Produces (each Slot.type) (fun _ => True) (constraints r) := by
  refine fun s => .eat fun _ t _ => .ite (fun _ => ?_) fun _ => .pure trivial rfl
  have htypes : Gives s [] (fun types : Array Node => each Slot.type types.toList) (fun _ => True) t
      (repeating #[] (barStep r) t) :=
    .repeating trivial rfl fun types u _ => barStep_gives h types u
  exact .bind htypes fun _ _ _ => .pure trivial rfl

theorem Fills.genericParameter (h : r.Produce) : Fills .generic (genericParameter r) :=
  fun _ => .here (.expectName fun _ _ => .rule (.constraints h) fun _ _ _ => .close trivial rfl rfl rfl)

theorem Produces.generics (h : r.Produce) : Produces (each Slot.generic) (fun _ => True) (generics r) :=
  fun _ => .eat fun _ _ _ => .ite (fun _ => (Produces.list (.genericParameter h)).gives) fun _ => .pure trivial rfl

/-! ### Variables -/

theorem Produces.pattern (start : Range) : Produces (fun _ => []) (fun _ => True) (pattern start) := by
  refine fun s => .eat fun _ t _ => .ite (fun _ => ?_) fun _ => .expectName fun _ _ => .pure trivial rfl
  have hnames : Gives s [] (fun _ => []) (fun _ => True) t (repeating #[] patternStep t) :=
    .repeating trivial rfl fun names u _ => .check fun _ _ => .ite (fun _ => .pure trivial rfl) fun _ =>
      .expectName fun _ _ => .eat fun _ _ _ => .ite (fun _ => .pure trivial rfl) fun _ => .pure trivial rfl
  refine .bind hnames fun names u _ => .expect fun _ v => ?_
  cases names.toList with
  | cons first others => exact .pure trivial rfl
  | nil => exact .finish fun _ => .fail

theorem Produces.variableKeyword : Produces (fun _ => []) (fun _ => True) variableKeyword :=
  fun _ => .eat fun _ _ _ => .ite (fun _ => .pure trivial rfl) fun _ =>
    .expect fun _ _ => .pure trivial rfl

/-- A variable may stand wherever one with a value may, if a value is required. -/
theorem variableDecl_gives (h : r.Produce) (attrs : List Node) (mods : Modifiers) (start : Range)
    (required : Bool) (s : State)
    (hslot : ∀ isConst names type init, (required = true → init.isSome = true) →
      slot.holds (.var attrs mods isConst names type init) = true) :
    Gives o (each Slot.value attrs) (fun n => [(slot, n)]) (fun _ => True) s
      (variableDecl r attrs mods start required s) := by
  refine .skip .variableKeyword fun isConst _ _ => .skip (.pattern start) fun names _ _ => ?_
  refine .rule (.optionalAfter h.type) fun type _ _ => .rule (.optionalAfter h.expression) fun init _ _ => ?_
  refine .ite (fun _ => .unexpected) fun hinit => ?_
  have hvalue : isConst = true ∨ required = true → init.isSome = true := by
    cases init with
    | some n => exact fun _ => rfl
    | none => simpa using hinit
  exact .close ⟨names.names_ne_nil, names.length_names, fun h => hvalue (.inl h)⟩ rfl rfl
    (hslot _ _ _ _ fun h => hvalue (.inr h))

/-! ### Functions -/

theorem Produces.overload {k : Kind} {start : Range} {name : String} (h : name ∈ k.overloads 0) :
    Produces (fun _ => []) (fun found => ∀ op ∈ found.2, found.1.text ∈ op.overloads 0)
      (overload k start name) := by
  refine fun s => .finish fun range => .pure ?_ rfl
  rintro op ⟨⟩
  exact h

theorem Produces.functionName :
    Produces (fun _ => []) (fun found => ∀ op ∈ found.2, found.1.text ∈ op.overloads 0) functionName := by
  refine fun s => .kind fun k _ => .here ?_
  split
  · exact .expectName fun _ _ => .pure (fun _ hop => by cases hop) rfl
  · exact .advance (overload (List.mem_singleton_self _)).gives
  · refine .advance (.expect fun _ _ => .eat fun stores _ _ => (overload ?_).gives)
    cases stores with
    | false => exact List.mem_cons_self
    | true => exact List.mem_cons_of_mem _ List.mem_cons_self
  · exact .advance (.expect fun _ _ => (overload (List.mem_singleton_self _)).gives)
  · cases hname : k.operatorName? with
    | none => exact .unexpected
    | some name =>
      have hlist : name ∈ k.operatorName?.toList := Option.mem_toList.mpr hname
      refine .advance (overload ?_).gives
      cases k <;> first | exact hlist | cases hname

theorem overloadName_eq (name : Ident) (op : Kind) (signature : Node) :
    overloadName name (some op) signature =
      if signature.params.length = 1 then
        match op.unaryOperatorName? with
        | some unary => { name with text := unary }
        | none => name
      else name := by
  obtain ⟨id, range, resolved, shape⟩ := signature
  cases shape
  case signature params result => rcases params with _ | ⟨_, _ | ⟨_, _⟩⟩ <;> rfl
  all_goals rfl

/-- The name of an overload fits the number of its parameters. -/
theorem overloadName_mem {name : Ident} {operator : Option Kind} (signature : Node)
    (h : ∀ op ∈ operator, name.text ∈ op.overloads 0) :
    ∀ op ∈ operator, (overloadName name operator signature).text ∈ op.overloads signature.params.length := by
  rintro op ⟨⟩
  replace h : name.text ∈ op.overloads 0 := h op rfl
  rw [overloadName_eq]
  split
  · rename_i hone
    rw [hone]
    cases hunary : op.unaryOperatorName? with
    | some unary => exact Kind.mem_overloads_unary hunary
    | none => exact Kind.mem_overloads_of_unary_none hunary h
  · rwa [Kind.overloads_of_ne_one ‹_›]

theorem Produces.functionBody (h : r.Produce) :
    Produces (fun body => each Slot.value body.toList) (fun _ => True) (functionBody r) := by
  refine fun s => .check fun _ _ => .ite (fun _ => ?_) fun _ => ?_
  · exact .rule (h.block.recast fun _ => value_of_block) fun _ _ _ => .pure trivial rfl
  refine .eat fun _ _ _ => .ite (fun _ => .rule h.expression fun _ _ _ => .pure trivial rfl) fun _ => ?_
  refine .eat fun _ _ _ => .ite (fun _ => .pure trivial rfl) fun _ => .kind fun k _ => ?_
  split
  · exact .pure trivial rfl
  · exact .pure trivial rfl
  · exact .ite (fun _ => .pure trivial rfl) fun _ => .unexpected

theorem Produces.functionAsync : Produces (fun _ => []) (fun _ => True) functionAsync := by
  refine fun s => .skip .takePendingAsync fun pending t _ => ?_
  cases pending with
  | some range => exact .pure trivial rfl
  | none => exact .eaten

theorem Produces.functionGenerics (h : r.Produce) (operator : Option Kind) :
    Produces (each Slot.generic) (fun params => ∀ op ∈ operator, params = []) (functionGenerics r operator) := by
  intro s
  cases operator with
  | none => exact (generics h s).weaken fun _ _ _ hop => by cases hop
  | some op => exact .pure (fun _ _ => rfl) rfl

variable (hslot : ∀ shape : Shape Node, shape.isDeclaration = true → slot.holds shape = true)
include hslot

theorem functionDecl_gives (h : r.Produce) (attrs : List Node) (mods : Modifiers) (start : Range) (s : State) :
    Gives o (each Slot.value attrs) (fun n => [(slot, n)]) (fun _ => True) s
      (functionDecl r attrs mods start s) := by
  refine .skip .functionAsync fun _ _ _ => .expect fun _ t => .skip .functionName ?_
  rintro ⟨name, operator⟩ u hname
  refine .rule (.functionGenerics h operator) fun params _ hparams => ?_
  refine .rule (Fills.callSignature h) fun signature _ _ => .rule (.functionBody h) fun body _ _ => ?_
  have hnamed := overloadName_mem signature hname
  exact .close (fun op hop => ⟨hparams op hop, hnamed op hop⟩) (by simp [Shape.slots]) rfl (hslot _ rfl)

/-! ### Types -/

omit hslot in
theorem Fills.enumOption (h : r.Produce) : Fills .enumOption (enumOption r) :=
  fun _ => .here (.rule (.attributes h) fun _ _ _ => .expectName fun _ _ =>
    .rule (.optionalAfter h.expression) fun _ _ _ => .close trivial rfl rfl rfl)

omit hslot in
theorem Produces.requireOptions (options : List Node) (range : Range) :
    Produces (fun _ => []) (fun _ => True) (requireOptions options range) :=
  fun s => .ite (fun _ => .across (.of_moves (.report s _) rfl) (.pure trivial rfl)) fun _ => .pure trivial rfl

theorem enumDecl_gives (h : r.Produce) (attrs : List Node) (mods : Modifiers) (start : Range) (s : State) :
    Gives o (each Slot.value attrs) (fun n => [(slot, n)]) (fun _ => True) s (enumDecl r attrs mods start s) :=
  .expect fun _ _ => .expectName fun _ _ => .rule (.optionalAfter h.type) fun _ _ _ => .expect fun _ _ =>
    .rule (.list (.enumOption h)) fun options _ _ => .finish fun range =>
      .skip (.requireOptions options range) fun _ _ _ => .node trivial rfl rfl (hslot _ rfl)

omit hslot in
theorem unionStep_gives (h : r.Produce) (hand : List (Slot × Node)) (members : Array Node) (s : State) :
    Gives o (hand ++ each Slot.type members.toList) (fun step => hand ++ each Slot.type step.value.toList)
      (fun step => members.size ≤ step.value.size ∧ (s.kind = .pipe → members.size < step.value.size)) s
      (unionStep r members s) := by
  refine .eat fun b t hb => .ite (fun _ => .rule h.type fun _ _ _ => .pure ?_ ?_) fun hnot => .pure ?_ rfl
  · simp [ForInStep.value]
  · simp [ForInStep.value]
  · exact ⟨Nat.le_refl _, fun hk => absurd (hb.mpr hk) hnot⟩

omit hslot in
/-- A bar behind the first type is followed by another. -/
theorem unionMembers_gives (h : r.Produce) (hand : List (Slot × Node)) (first : Node) (hk : s.kind = .pipe) :
    Gives o (hand ++ [(.type, first)]) (fun members => hand ++ each Slot.type members)
      (fun members => 2 ≤ members.length) s (unionMembers r first s) := by
  have hmembers : Gives o (hand ++ [(.type, first)])
      (fun members : Array Node => hand ++ each Slot.type members.toList) (fun members => 2 ≤ members.size) s
      (repeating #[first] (unionStep r) s) := by
    refine .repeatFrom ?_ fun members t hsize => ?_
    · exact (unionStep_gives h hand #[first] s).weaken fun _ ⟨_, hmore⟩ => hmore hk
    · exact (unionStep_gives h hand members t).weaken fun _ ⟨hle, _⟩ => Nat.le_trans hsize hle
  exact .bind hmembers fun _ _ hsize => .pure hsize rfl

theorem typeDecl_gives (h : r.Produce) (attrs : List Node) (mods : Modifiers) (start : Range) (s : State) :
    Gives o (each Slot.value attrs) (fun n => [(slot, n)]) (fun _ => True) s (typeDecl r attrs mods start s) := by
  refine .expect fun _ _ => .expectName fun _ _ => .rule (.generics h) fun params _ _ => .expect fun _ _ => ?_
  refine .rule h.type fun first t _ => .check fun _ hb => .ite (fun hpipe => ?_) fun _ => ?_
  · exact .bind (unionMembers_gives h _ first (hb.mp hpipe)) fun _ _ hsize =>
      .close hsize rfl rfl (hslot _ rfl)
  · exact .close trivial rfl rfl (hslot _ rfl)

omit hslot in
theorem Produces.skipSeparators : Produces (fun _ => []) (fun _ => True) skipSeparators :=
  fun _ => .repeating trivial rfl fun _ _ _ => .eat fun _ _ _ => .ite (fun _ => .pure trivial rfl) fun _ =>
    .eat fun _ _ _ => .ite (fun _ => .pure trivial rfl) fun _ => .pure trivial rfl

omit hslot in
theorem structMemberStep_gives (h : r.Produce) (hand : List (Slot × Node)) (members : Array Node) (s : State) :
    Gives o (hand ++ each Slot.structMember members.toList)
      (fun step => hand ++ each Slot.structMember step.value.toList) (fun _ => True) s
      (structMemberStep r members s) := by
  refine .kind fun k _ => ?_
  split
  · exact .pure trivial rfl
  · exact .pure trivial rfl
  · exact .rule h.structMember fun _ _ _ => .skip .skipSeparators fun _ _ _ =>
      .pure trivial (by simp [ForInStep.value])

theorem structDecl_gives (h : r.Produce) (attrs : List Node) (mods : Modifiers) (start : Range) (s : State) :
    Gives o (each Slot.value attrs) (fun n => [(slot, n)]) (fun _ => True) s (structDecl r attrs mods start s) := by
  refine .expect fun _ _ => .expectName fun _ _ => .rule (.generics h) fun params t _ => .expect fun _ u => ?_
  have hmembers : Gives o (each Slot.value attrs ++ each Slot.generic params)
      (fun members : Array Node =>
        each Slot.value attrs ++ each Slot.generic params ++ each Slot.structMember members.toList)
      (fun _ => True) u (withStructLiterals true (repeating #[] (structMemberStep r)) u) :=
    .withStructLiterals fun v => .repeating trivial (List.append_nil _) fun members w _ =>
      structMemberStep_gives h _ members w
  exact .bind hmembers fun _ _ _ => .expect fun _ _ => .close trivial rfl rfl (hslot _ rfl)

/-! ### Any declaration -/

omit hslot in
theorem Produces.modifiers : Produces (fun _ => []) (fun _ => True) modifiers := by
  refine fun s => .repeating trivial rfl fun mods t _ => .kind fun k _ => ?_
  split
  · exact .advance (.pure trivial rfl)
  · exact .advance (.pure trivial rfl)
  · exact .pure trivial rfl

theorem declarationAfter_gives (h : r.Produce) (attrs : List Node) (start : Range) (s : State) :
    Gives o (each Slot.value attrs) (fun n => [(slot, n)]) (fun _ => True) s
      (declarationAfter r attrs start s) := by
  refine .skip .modifiers fun mods t _ => .kind fun k _ => ?_
  split
  · exact structDecl_gives hslot h attrs mods start t
  · exact enumDecl_gives hslot h attrs mods start t
  · exact typeDecl_gives hslot h attrs mods start t
  · exact variableDecl_gives h attrs mods start false t fun _ _ _ _ _ => hslot _ rfl
  · exact variableDecl_gives h attrs mods start false t fun _ _ _ _ _ => hslot _ rfl
  · exact functionDecl_gives hslot h attrs mods start t
  · exact functionDecl_gives hslot h attrs mods start t
  · exact .unexpected

theorem Fills.declaration (h : r.Produce) : Fills slot (declaration r) :=
  fun _ => .here (.rule (.attributes h) fun attrs t _ => declarationAfter_gives hslot h attrs _ t)

omit hslot in
theorem structField_gives (h : r.Produce) (attrs : List Node) (start : Range) (s : State) :
    Gives o (each Slot.value attrs) (fun n => [(.structMember, n)]) (fun _ => True) s
      (structField r attrs start s) :=
  .eat fun _ _ _ => .expectName fun _ _ => .expect fun _ _ => .rule h.type fun _ _ _ =>
    .rule (.optionalAfter h.expression) fun _ _ _ => .close trivial (by simp [Shape.slots]) rfl rfl

omit hslot in
theorem structMember_of_declaration {shape : Shape Node} (h : shape.isDeclaration = true) :
    Slot.structMember.holds shape = true := by
  cases shape <;> first | rfl | cases h

omit hslot in
theorem Fills.structMemberRule (h : r.Produce) : Fills .structMember (structMemberRule r) := by
  refine fun s => .here (.rule (.attributes h) fun attrs t _ => .check fun _ _ => .check fun _ _ => ?_)
  refine .look .peek fun _ => .ite (fun _ => structField_gives h attrs _ t) fun _ => ?_
  exact declarationAfter_gives (fun _ => structMember_of_declaration) h attrs _ t

end Grammar

end BraceLang
