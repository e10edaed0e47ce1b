import BraceLang.Proofs.Grammar.Spans.Expressions

/-! Where declarations lie. A declaration starts at its attributes, or at the `async` before it, which are
    read before it is known what they belong to. -/

namespace BraceLang.Grammar

variable {r : Rules} {source : Nat} {s o : State}

/-! ### Attributes and generic parameters -/

theorem Settles.attributes (h : r.Settle source) : Settles source Hand.nodes (attributes r) := by
  refine fun s _ => .repeating (.refl _) fun attrs t => .eat rfl (fun _ => ?_) fun _ => .pure (.refl _)
  exact .expect rfl fun _ _ => .parts (.list rfl h.value) fun _ _ => .pure (.forget rfl)

theorem Settles.constraints (h : r.Settle source) : Settles source Hand.nodes (constraints r) := by
  have htypes : Settles source (fun types : Array Node => .nodes types.toList) (repeating #[] (barStep r)) := by
    refine fun s _ => .repeating (.refl _) fun types t => .part h.type fun _ _ => ?_
    exact .eat rfl (fun _ => .pure .push) fun _ => .pure .push
  exact fun s _ => .eat rfl (fun _ => .parts htypes fun _ _ => .pure (.forget rfl)) fun _ => .pure (.refl _)

theorem Settles.genericParameter (h : r.Settle source) : Settles source Hand.node (genericParameter r) :=
  fun _ hs => .here (.expectName fun _ _ => .parts (.constraints h) fun _ _ => .close rfl (.inl hs) (.refl _))

theorem Settles.generics (h : r.Settle source) : Settles source Hand.nodes (generics r) := by
  have hlist : Settles source Hand.nodes (Grammar.list .rBracket (Grammar.genericParameter r)) :=
    .list rfl (genericParameter h)
  exact fun s _ => .eat rfl (fun t => hlist.leaves.covers fun _ => .forget rfl) fun _ => .pure (.refl _)

/-! ### Variables -/

theorem Settles.pattern (start : Range) : Settles source (fun names => .idents names.names) (pattern start) := by
  have hnames : Settles source (fun names : Array Ident => .idents names.toList) (repeating #[] patternStep) := by
    refine fun s _ => .repeating (.refl _) fun names t => .check fun _ _ => ?_
    refine .ite (fun _ => .pure (.refl _)) fun _ => ?_
    exact .expectName fun _ _ => .eat rfl (fun _ => .pure .pushIdent) fun _ => .pure .pushIdent
  refine fun s _ => .eat rfl (fun t => ?_) fun _ => .expectName fun _ _ => .pure (.forget rfl)
  refine .idents hnames fun names u => .expect rfl fun _ v => ?_
  cases hnames : names.toList with
  | cons first others => exact .pure (.forget rfl)
  | nil => exact .finish .fail

theorem Settles.variableKeyword : Settles source (fun _ => Hand.empty.begin) variableKeyword :=
  fun _ _ => .eat rfl (fun _ => .pure (.refl _)) fun _ => .expect rfl fun _ _ => .pure (.refl _)

section Declarations
variable (h : r.Settle source) (ho : o.pendingAsync = none)
include h ho

theorem variableDecl_leaves (attrs : List Node) (mods : Modifiers) (required : Bool) (s : State) :
    Leaves source o (.nodes attrs) Hand.node s (variableDecl r attrs mods o.current.range required s) := by
  refine .taking .variableKeyword fun _ _ => .idents (.pattern _) fun _ _ => ?_
  refine .parts (.optionalAfter rfl h.type) fun _ _ => .parts (.optionalAfter rfl h.value) fun _ _ => ?_
  exact .ite (fun _ => .unexpected) fun _ => .close rfl (.inl ho) (.refl _)

/-! ### Functions -/

omit h ho in
/-- The name of an overload reaches over the tokens that spell it. -/
theorem overload_leaves (k : Kind) (name : String) (s : State) :
    Leaves source o Hand.empty.begin (fun found => .idents [found.1]) s (overload k o.current.range name s) := by
  intro hheld found t hok
  rw [overload, finish_bind] at hok
  obtain ⟨rfl, rfl⟩ := pure_eq_ok.mp hok
  obtain ⟨taken, hahead, hlast, -, hspans⟩ := hheld.spans rfl
  exact ⟨hheld.ordered, hheld.idle, taken, hahead, hlast, Bool.noConfusion,
    List.forall_mem_singleton.mpr hspans.inside, List.forall_mem_nil _, List.forall_mem_nil _, .nil⟩

omit h ho in
theorem Settles.functionName : Settles source (fun found => .idents [found.1]) functionName := by
  refine fun s _ => .kind fun k hk => .here ?_
  split
  · exact .expectName fun _ _ => .pure (.forget rfl)
  · exact .advance (hk ▸ Kind.noConfusion) (overload_leaves _ _ _)
  · exact .advance (hk ▸ Kind.noConfusion) (.expect rfl fun _ _ =>
      .eat rfl (fun _ => overload_leaves _ _ _) fun _ => overload_leaves _ _ _)
  · exact .advance (hk ▸ Kind.noConfusion) (.expect rfl fun _ _ => overload_leaves _ _ _)
  · cases hname : k.operatorName? with
    | none => exact .unexpected
    | some name =>
      refine .advance ?_ (overload_leaves _ _ _)
      rintro hs
      rw [← hk, hs] at hname
      cases hname

omit h ho in
theorem overloadName_range (name : Ident) (operator : Option Kind) (signature : Node) :
    (overloadName name operator signature).range = name.range := by
  unfold overloadName
  split
  · split <;> rfl
  · rfl

omit ho in
theorem Settles.functionGenerics (operator : Option Kind) :
    Settles source Hand.nodes (functionGenerics r operator) :=
  fun s hs => .ite (fun _ => generics h s hs) fun _ => .pure (.refl _)

omit ho in
theorem Settles.functionBody : Settles source (fun body => .nodes body.toList) (functionBody r) := by
  refine fun s _ => .check fun _ _ => .ite (fun _ => .part h.block fun _ _ => .pure (.forget rfl)) fun _ => ?_
  refine .eat rfl (fun _ => .part h.value fun _ _ => .pure (.forget rfl)) fun _ => ?_
  refine .eat rfl (fun _ => .pure (.forget rfl)) fun _ => .kind fun k _ => ?_
  split
  · exact .pure (.refl _)
  · exact .pure (.refl _)
  · exact .ite (fun _ => .pure (.refl _)) fun _ => .unexpected

/-- What follows once it is known whether a function is asynchronous. -/
def functionFrom (inner : Rules) (attrs : List Node) (mods : Modifiers) (start : Range) (isAsync : Bool) :
    Parser Node := do
  let _ ← expect .kwFunc
  let (name, operator) ← functionName
  let params ← functionGenerics inner operator
  let signature ← callSignature inner
  let name := overloadName name operator signature
  let body ← functionBody inner
  close start (.func attrs mods isAsync name operator params signature body)

omit h ho in
theorem functionDecl_of_idle {attrs : List Node} {mods : Modifiers} {start : Range} (hs : s.pendingAsync = none) :
    functionDecl r attrs mods start s = (eat .kwAsync >>= functionFrom r attrs mods start) s := by
  have hasync : functionAsync s = eat .kwAsync s := by
    rw [functionAsync, bind_of_ok (takePendingAsync_of_idle hs)]
  rw [eat_run] at hasync
  rw [eat_bind, functionDecl]
  split at hasync
  · rw [if_pos ‹_›, bind_of_ok hasync]
    rfl
  · rw [if_neg ‹_›, bind_of_ok hasync]
    rfl

omit h ho in
theorem functionDecl_of_pending {attrs : List Node} {mods : Modifiers} {start range : Range}
    (hs : s.pendingAsync = some range) : functionDecl r attrs mods start s =
      functionFrom r attrs mods start true { s with pendingAsync := none } := by
  have hasync : functionAsync s = .ok true { s with pendingAsync := none } := by
    rw [functionAsync, bind_of_ok (takePendingAsync_of_pending hs)]
    rfl
  rw [functionDecl, bind_of_ok hasync]
  rfl

theorem functionFrom_leaves (attrs : List Node) (mods : Modifiers) (isAsync : Bool) (s : State) :
    Leaves source o (.nodes attrs) Hand.node s (functionFrom r attrs mods o.current.range isAsync s) := by
  refine .expect rfl fun _ _ => .idents .functionName fun (name, operator) _ => ?_
  refine .parts (.functionGenerics h operator) fun _ _ => .part (.callSignature h) fun signature _ => ?_
  refine .parts (.functionBody h) fun _ _ => .close rfl (.inl ho) ⟨fun _ => rfl, ?_, ?_⟩
  · exact congrArg (fun range => [range]) (overloadName_range name operator signature)
  · simp [Hand.ofShape, Hand.withNode, Hand.withNodes, Hand.withIdents, Hand.begin, Hand.nodes, Shape.toList]

theorem functionDecl_leaves (attrs : List Node) (mods : Modifiers) (s : State) :
    Leaves source o (.nodes attrs) Hand.node s (functionDecl r attrs mods o.current.range s) := by
  intro hheld
  rw [functionDecl_of_idle hheld.idle]
  have hfunction : Leaves source o (.nodes attrs) Hand.node s
      ((eat .kwAsync >>= functionFrom r attrs mods o.current.range) s) :=
    .option rfl fun isAsync t => functionFrom_leaves h ho attrs mods isAsync t
  exact hfunction hheld

/-! ### Types -/

omit ho in
theorem Settles.enumOption : Settles source Hand.node (enumOption r) :=
  fun _ hs => .here (.parts (.attributes h) fun _ _ => .expectName fun _ _ =>
    .parts (.optionalAfter rfl h.value) fun _ _ => .close rfl (.inl hs) (.refl _))

theorem enumDecl_leaves (attrs : List Node) (mods : Modifiers) (s : State) :
    Leaves source o (.nodes attrs) Hand.node s (enumDecl r attrs mods o.current.range s) := by
  refine .expect rfl fun _ _ => .expectName fun _ _ => .parts (.optionalAfter rfl h.type) fun _ _ => ?_
  refine .expect rfl fun _ _ => .parts (.list rfl (.enumOption h)) fun options t => .finish ?_
  rw [requireOptions]
  split
  · intro hheld
    rw [report_bind]
    exact Leaves.node (.inl ho) (.refl _) rfl ⟨hheld.ordered, hheld.idle, hheld.placed⟩
  · exact .node (.inl ho) (.refl _) rfl

omit ho in
theorem unionMembers_leaves (hand : Hand) (first : Node) (s : State) :
    Leaves source o (hand.withNode first) (fun members => hand.withNodes members) s (unionMembers r first s) := by
  have hmembers : Leaves source o (hand.withNode first)
      (fun members : Array Node => hand.withNodes members.toList) s (repeating #[first] (unionStep r) s) := by
    refine .repeating ⟨fun _ => rfl, rfl, rfl⟩ fun members t => .eat rfl (fun _ => ?_) fun _ => .pure (.refl _)
    refine .part h.type fun n _ => .pure ⟨fun _ => rfl, rfl, ?_⟩
    show hand.parts ++ (members.push n).toList = (hand.parts ++ members.toList) ++ [n]
    rw [Array.toList_push, List.append_assoc]
  exact .bind hmembers fun _ _ => .pure (.refl _)

theorem typeDecl_leaves (attrs : List Node) (mods : Modifiers) (s : State) :
    Leaves source o (.nodes attrs) Hand.node s (typeDecl r attrs mods o.current.range s) := by
  refine .expect rfl fun _ _ => .expectName fun name _ => .parts (.generics h) fun params _ => ?_
  refine .expect rfl fun _ _ => .part h.type fun first t => .check fun _ _ => .ite (fun _ => ?_) fun _ => ?_
  · exact .bind (unionMembers_leaves h _ first t) fun _ _ => .close rfl (.inl ho) (.refl _)
  · exact .close rfl (.inl ho) (.refl _)

omit h ho in
theorem Settles.skipSeparators : Settles source (fun _ => .empty) skipSeparators :=
  fun _ _ => .repeating (.refl _) fun _ _ => .eat rfl (fun _ => .pure (.forget rfl)) fun _ =>
    .eat rfl (fun _ => .pure (.forget rfl)) fun _ => .pure (.refl _)

theorem structDecl_leaves (attrs : List Node) (mods : Modifiers) (s : State) :
    Leaves source o (.nodes attrs) Hand.node s (structDecl r attrs mods o.current.range s) := by
  have hmembers : Settles source (fun members : Array Node => .nodes members.toList)
      (withStructLiterals true (repeating #[] (structMemberStep r))) := by
    refine fun t _ => .withStructLiterals fun u => .repeating (.refl _) fun members v => .kind fun k _ => ?_
    split
    · exact .pure (.refl _)
    · exact .pure (.refl _)
    · exact .part h.structMember fun _ _ => .skip .skipSeparators fun _ _ =>
        .pure .push
  refine .expect rfl fun _ _ => .expectName fun _ _ => .parts (.generics h) fun _ _ => .expect rfl fun _ _ => ?_
  exact .parts hmembers fun _ _ => .expect rfl fun _ _ => .close rfl (.inl ho) (.refl _)

/-! ### Any declaration -/

omit h ho in
theorem Settles.modifiers : Settles source (fun _ => .empty) modifiers := by
  refine fun s _ => .repeating (.refl _) fun mods t => .kind fun k hk => ?_
  split
  · exact .advance (hk ▸ Kind.noConfusion) (.pure (.forget rfl))
  · exact .advance (hk ▸ Kind.noConfusion) (.pure (.forget rfl))
  · exact .pure (.refl _)

theorem declarationAfter_leaves (attrs : List Node) (s : State) :
    Leaves source o (.nodes attrs) Hand.node s (declarationAfter r attrs o.current.range s) := by
  refine .skip .modifiers fun mods t => .kind fun k _ => ?_
  split
  · exact structDecl_leaves h ho attrs mods t
  · exact enumDecl_leaves h ho attrs mods t
  · exact typeDecl_leaves h ho attrs mods t
  · exact variableDecl_leaves h ho attrs mods false t
  · exact variableDecl_leaves h ho attrs mods false t
  · exact functionDecl_leaves h ho attrs mods t
  · exact functionDecl_leaves h ho attrs mods t
  · exact .unexpected

theorem structField_leaves (attrs : List Node) (s : State) :
    Leaves source o (.nodes attrs) Hand.node s (structField r attrs o.current.range s) := by
  refine .option rfl fun _ _ => .expectName fun _ _ => .expect rfl fun _ _ => .part h.type fun _ _ => ?_
  refine .parts (.optionalAfter rfl h.value) fun _ _ => .close rfl (.inl ho) ⟨fun _ => rfl, rfl, ?_⟩
  simp [Hand.ofShape, Hand.withNode, Hand.withNodes, Hand.withIdent, Hand.begin, Hand.nodes, Shape.toList]

end Declarations

theorem Settles.declaration (h : r.Settle source) : Settles source Hand.node (declaration r) :=
  fun _ hs => .here (.bind (attributes h _ hs) fun attrs t => declarationAfter_leaves h hs attrs t)

theorem Settles.structMemberRule (h : r.Settle source) : Settles source Hand.node (structMemberRule r) := by
  refine fun s hs => .here (.bind (attributes h s hs) fun attrs t => .check fun _ _ => .check fun _ _ => ?_)
  exact .look .peek fun _ => .ite (fun _ => structField_leaves h hs attrs t) fun _ =>
    declarationAfter_leaves h hs attrs t

end BraceLang.Grammar
