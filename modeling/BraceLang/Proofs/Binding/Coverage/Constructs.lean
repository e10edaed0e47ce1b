import BraceLang.Proofs.Binding.Coverage

/-! The places that binding a node covers, construct by construct: if binding the parts covers the places
    of their trees, binding the node covers those of its own. -/

namespace BraceLang

namespace Lexical

@[simp] theorem inTurn_nil (standing : Standing) (scopes : Scopes) : inTurn standing scopes [] = [] := rfl

theorem inTurn_cons (standing : Standing) (scopes : Scopes) (n : Node) (ns : List Node) :
    inTurn standing scopes (n :: ns) = ⟨standing, scopes, n⟩ :: inTurn standing (scopes.after [n]) ns := by
  rw [inTurn, Scopes.after_singleton]

end Lexical

namespace Binder
open Lexical

/-- Binding a node in any scopes covers the places of its tree. -/
def CoversTree (n : Node) : Prop :=
  ∀ scopes, ∃ after, Covers (bindWhole n (n.shape.map part)) scopes after (Place.all ⟨.plain, scopes, n⟩)

/-- Binding a node as an attribute in any scopes covers the places of its tree. -/
def CoversAttribute (n : Node) : Prop :=
  ∀ scopes, ∃ after, Covers (bindAttribute n (n.shape.map part)) scopes after
    (Place.all ⟨.attribute, scopes, n⟩)

variable {n : Node}

/-! ### Parts -/

theorem Covers.traverse (scopes : Scopes) {s : Shape Node} (hs : isPlain s) (h : ∀ c ∈ s.toList, Covered c) :
    ∃ after, Covers ((s.map part).traverse Binder.visit) scopes after
      ((inTurn .plain scopes s.toList).flatMap Place.all) := by
  cases s
  case bool | int | float | char | str | null | dot | prim => exact ⟨_, .pure _⟩
  case group | prefixed | postfixed | spread | fieldInit | exprStmt | pointer | optional =>
    refine ⟨_, .of_eq (.last (.visit (h _ List.mem_cons_self)) fun _ => .pure _) ?_⟩
    simp [Shape.toList, inTurn_cons]
  case template | tuple | array | tupleType => exact ⟨_, .last (.visits h) fun _ => .pure _⟩
  case yield => exact ⟨_, .last (.option fun c hc => h c (by simpa [Shape.toList] using hc)) fun _ => .pure _⟩
  case binary | assign | cast =>
    simp only [Shape.toList, List.forall_mem_cons] at h
    refine ⟨_, .of_eq (.bind (.visit h.1) fun _ => .last (.visit h.2.1) fun _ => .pure _) ?_⟩
    simp [Shape.toList, inTurn_cons]
  case call | new | index | structLiteral =>
    simp only [Shape.toList, List.forall_mem_cons] at h
    refine ⟨_, .of_eq (.bind (.visit h.1) fun _ => .last (.visits h.2) fun _ => .pure _) ?_⟩
    simp [Shape.toList, inTurn_cons]
  case signature | funcType =>
    simp only [Shape.toList, List.forall_mem_append, Option.mem_toList] at h
    refine ⟨_, .of_eq (.bind (.visits h.1) fun _ => .last (.option h.2) fun _ => .pure _) ?_⟩
    simp [Shape.toList, inTurn_append]
  case arrayType =>
    simp only [Shape.toList, List.forall_mem_cons, Option.mem_toList] at h
    refine ⟨_, .of_eq (.bind (.visit h.1) fun _ => .last (.option h.2) fun _ => .pure _) ?_⟩
    simp [Shape.toList, inTurn_cons]
  case ternary =>
    simp only [Shape.toList, List.cons_append, List.forall_mem_cons, List.forall_mem_append, Option.mem_toList] at h
    refine ⟨_, .of_eq (.bind (.visit h.1) fun _ => .bind (.option h.2.1) fun _ =>
      .last (.visit h.2.2.1) fun _ => .pure _) ?_⟩
    simp [Shape.toList, inTurn_cons, inTurn_append]
  all_goals cases hs

/-- A bare name or index that stands for no value. -/
theorem Covers.selector {p : Place} (hp : p.node.isSelector) (hs : p.standing ≠ .plain) (node : Node)
    (before : Scopes) : Covers (Pure.pure node) before before p.all := by
  obtain ⟨standing, scopes, id, range, resolved, shape⟩ := p
  refine .silent ?_ (.pure node) ?_ <;> cases shape
  all_goals first | exact ⟨rfl, if_neg hs⟩ | exact ⟨rfl, rfl⟩ | rfl | cases hp

/-- A node that is no bare name is gone through in the same way whatever part it plays, unless it is an
    attribute that is a call. -/
theorem Covers.restand {m : BindM Node} {scopes after : Scopes} {standing : Standing}
    (h : Covers m scopes after (Place.all ⟨.plain, scopes, n⟩)) (hname : isName n = false)
    (hs : standing = .attribute → ∀ callee args, n.shape ≠ .call callee args) :
    Covers m scopes after (Place.all ⟨standing, scopes, n⟩) := by
  have names : Place.unknown? ⟨standing, scopes, n⟩ = Place.unknown? ⟨.plain, scopes, n⟩ := by
    obtain ⟨id, range, resolved, shape⟩ := n
    cases shape <;> first | rfl | cases hname
  rw [Place.all_eq] at h ⊢
  rw [parts_standing hs]
  refine h.congr ?_ ?_
  · rw [List.countP_cons, List.countP_cons]
  · rw [List.filterMap_cons, List.filterMap_cons, names]

theorem Covers.macroTarget {scopes : Scopes} (h : Covered n) :
    Covers (visitMacroTarget (part n)) scopes (scopes.after [n]) (Place.all ⟨.macroTarget, scopes, n⟩) := by
  unfold visitMacroTarget
  rw [part_fst]
  by_cases hname : isName n
  · rw [if_pos hname, Scopes.after_singleton, declares_name hname, Scopes.extend_nil]
    exact .selector (isSelector_of_isName hname) Standing.noConfusion _ _
  · rw [if_neg hname]
    exact (visit h).restand (by simpa using hname) Standing.noConfusion

/-- A construct that has a scope of its own or none. -/
theorem Covers.inScopeIf {m : BindM Node} {scopes : Scopes} (p : Place) (ns : List Node) (quiet : p.unknown? = none)
    (h : ∀ inner, Covers m inner (inner.after ns) ((inTurn .plain inner ns).flatMap Place.all))
    (parts : p.parts = inTurn .plain (if p.node.opensScope then [] :: scopes else scopes) ns) :
    ∃ after, Covers (Binder.inScopeIf p.node.opensScope m) scopes after p.all := by
  cases opens : p.node.opensScope
  · rw [opens] at parts
    exact ⟨_, .silent ⟨opens, quiet⟩ (h scopes) (by rw [parts]; rfl)⟩
  · rw [opens] at parts
    exact ⟨_, .first (.inScope opens quiet (h ([] :: scopes))) (by rw [parts]; rfl)⟩

/-! ### Constructs without scopes of their own -/

theorem coversTree_name {text : String} (hn : n.shape = .name text) : CoversTree n := by
  intro scopes
  rw [hn]
  have unknown : Place.unknown? ⟨.plain, scopes, n⟩ = scopes.unknown? text n.range := by
    simp [Place.unknown?, hn]
  refine ⟨_, .first ((Covers.resolve ?_ unknown).last fun _ => .pure _) ?_⟩
  · exact congrArg Shape.opensScope hn
  · simp [Place.parts, hn, Shape.toList]

theorem coversTree_broken (hn : n.shape = .broken) : CoversTree n := by
  intro scopes
  rw [hn]
  refine ⟨_, .silent (.of_shape hn rfl rfl) (.last (.jump _ _ Code.noConfusion) fun _ => .pure _) ?_⟩
  simp [Place.parts, hn, Shape.toList]

theorem coversTree_continued (hn : n.shape = .continued) : CoversTree n := by
  intro scopes
  rw [hn]
  refine ⟨_, .silent (.of_shape hn rfl rfl) (.last (.jump _ _ Code.noConfusion) fun _ => .pure _) ?_⟩
  simp [Place.parts, hn, Shape.toList]

section Parts
variable (h : ∀ c ∈ n.children, Covered c)
include h

theorem coversTree_plain (hn : isPlain n.shape) : CoversTree n := by
  intro scopes
  obtain ⟨after, covers⟩ := Covers.traverse scopes hn h
  rw [bindWhole_plain n (by rwa [isPlain_map])]
  refine ⟨after, .silent ?_ (covers.last fun _ => .pure _) ?_⟩
  · generalize hshape : n.shape = shape at hn
    refine .of_shape hshape ?_ ?_ <;> cases shape <;> first | rfl | cases hn
  · rw [parts_plain hn]
    rfl

theorem coversTree_named {head : Ident} {path : List Ident} {args : List Node}
    (hn : n.shape = .named head path args) : CoversTree n := by
  intro scopes
  rw [Node.children, hn] at h
  rw [hn]
  have unknown : Place.unknown? ⟨.plain, scopes, n⟩ = scopes.unknown? head.text head.range := by
    simp [Place.unknown?, hn]
  refine ⟨_, .first ((Covers.resolve ?_ unknown).bind fun _ => .last (.visits h) fun _ => .pure _) ?_⟩
  · exact congrArg Shape.opensScope hn
  · simp [Place.parts, hn, Shape.toList]

theorem coversTree_member {target member : Node} {optional : Bool}
    (hn : n.shape = .member target member optional) (hmember : member.isSelector) : CoversTree n := by
  intro scopes
  simp only [Node.children, hn, Shape.toList, List.forall_mem_cons] at h
  rw [hn]
  have covers : Covers (bindWhole n (.member (part target) (part member) optional)) scopes (scopes.after [target])
      (Place.all ⟨.plain, scopes, target⟩ ++ Place.all ⟨.selector, scopes.after [target], member⟩) := by
    exact (Covers.visit h.1).bind fun _ => .selector hmember Standing.noConfusion _ _
  refine ⟨_, .silent (.of_shape hn rfl rfl) covers ?_⟩
  simp [Place.parts, hn]

theorem coversTree_returned {value : Option Node} (hn : n.shape = .returned value) :
    CoversTree n := by
  intro scopes
  simp only [Node.children, hn, Shape.toList, Option.mem_toList] at h
  rw [hn]
  refine ⟨_, .silent (.of_shape hn rfl rfl) (.bind (.jump _ _ Code.noConfusion) fun _ =>
    .last (.option h) fun _ => .pure _) ?_⟩
  simp [Place.parts, hn, Shape.toList]

theorem coversTree_macroName {target : Node} (hn : n.shape = .macroName target) :
    CoversTree n := by
  intro scopes
  simp only [Node.children, hn, Shape.toList, List.forall_mem_singleton] at h
  rw [hn]
  refine ⟨_, .silent (.of_shape hn rfl rfl) (.last (.macroTarget h) fun _ => .pure _) ?_⟩
  simp [Place.parts, hn]

theorem coversTree_macroCall {target : Node} {args : List Node}
    (hn : n.shape = .macroCall target args) : CoversTree n := by
  intro scopes
  simp only [Node.children, hn, Shape.toList, List.forall_mem_cons] at h
  rw [hn]
  refine ⟨_, .silent (.of_shape hn rfl rfl) (.bind (.macroTarget h.1) fun _ =>
    .last (.visits h.2) fun _ => .pure _) ?_⟩
  simp [Place.parts, hn]

/-! ### Names declared after the parts -/

theorem coversTree_var {attrs : List Node} {modifiers : Modifiers} {isConst : Bool} {pattern : Pattern}
    {type init : Option Node} (hn : n.shape = .var attrs modifiers isConst pattern type init) : CoversTree n := by
  intro scopes
  simp only [Node.children, hn, Shape.toList, List.forall_mem_append, Option.mem_toList] at h
  obtain ⟨⟨hattrs, htype⟩, hinit⟩ := h
  rw [hn]
  refine ⟨_, .silent (.of_shape hn rfl rfl) (.bind (.attributes hattrs) fun _ => .bind (.option htype) fun _ =>
    .last (.option hinit) fun _ => .last (.declareAll _ _) fun _ => .pure _) ?_⟩
  simp [Place.parts, hn, inTurn_append]

theorem coversTree_param {name : Ident} {type default : Option Node}
    (hn : n.shape = .param name type default) : CoversTree n := by
  intro scopes
  simp only [Node.children, hn, Shape.toList, List.forall_mem_append, Option.mem_toList] at h
  rw [hn]
  refine ⟨_, .silent (.of_shape hn rfl rfl) (.bind (.option h.1) fun _ => .last (.option h.2) fun _ =>
    .last (.declare _ _) fun _ => .pure _) ?_⟩
  simp [Place.parts, hn, Shape.toList, inTurn_append]

theorem coversTree_generic {name : Ident} {constraints : List Node}
    (hn : n.shape = .generic name constraints) : CoversTree n := by
  intro scopes
  rw [Node.children, hn] at h
  rw [hn]
  refine ⟨_, .silent (.of_shape hn rfl rfl) (.last (.visits h) fun _ =>
    .last (.declare _ _) fun _ => .pure _) ?_⟩
  simp [Place.parts, hn, Shape.toList]

theorem coversTree_field {attrs : List Node} {isPrivate : Bool} {name : Ident} {type : Node}
    {default : Option Node} (hn : n.shape = .field attrs isPrivate name type default) : CoversTree n := by
  intro scopes
  simp only [Node.children, hn, Shape.toList, List.forall_mem_append, List.forall_mem_cons, Option.mem_toList] at h
  obtain ⟨hattrs, htype, hdefault⟩ := h
  rw [hn]
  refine ⟨_, .silent (.of_shape hn rfl rfl) (.bind (.attributes hattrs) fun _ => .bind (.visit htype) fun _ =>
    .last (.option hdefault) fun _ => .last (.declare _ _) fun _ => .pure _) ?_⟩
  simp [Place.parts, hn, inTurn_cons]

theorem coversTree_enumOption {attrs : List Node} {name : Ident} {value : Option Node}
    (hn : n.shape = .enumOption attrs name value) : CoversTree n := by
  intro scopes
  simp only [Node.children, hn, Shape.toList, List.forall_mem_append, Option.mem_toList] at h
  rw [hn]
  refine ⟨_, .silent (.of_shape hn rfl rfl) (.bind (.attributes h.1) fun _ => .last (.option h.2) fun _ =>
    .last (.declare _ _) fun _ => .pure _) ?_⟩
  simp [Place.parts, hn]

theorem coversTree_deferred {stmt : Node} (hn : n.shape = .deferred stmt) :
    CoversTree n := by
  intro scopes
  simp only [Node.children, hn, Shape.toList, List.forall_mem_singleton] at h
  rw [hn]
  refine ⟨_, .silent (.of_shape hn rfl rfl) (.bind (.hoist stmt) fun _ => .last (.visit h) fun _ => .pure _) ?_⟩
  simp [Place.parts, hn, hoisted_singleton]

/-! ### Scopes -/

theorem coversTree_func {attrs : List Node} {modifiers : Modifiers} {isAsync : Bool} {name : Ident}
    {operator : Option Kind} {generics : List Node} {signature : Node} {body : Option Node}
    (hn : n.shape = .func attrs modifiers isAsync name operator generics signature body) : CoversTree n := by
  intro scopes
  simp only [Node.children, hn, Shape.toList, List.forall_mem_append, List.forall_mem_cons, Option.mem_toList] at h
  obtain ⟨⟨hattrs, hgenerics⟩, hsignature, hbody⟩ := h
  have quiet : Place.unknown? ⟨.plain, scopes, n⟩ = none := Place.unknown?_eq_none hn rfl
  rw [hn]
  refine ⟨_, .late quiet (.bind (.attributes hattrs) fun _ => .inScope (congrArg Shape.opensScope hn) quiet <|
    .bind (.visits hgenerics) fun _ => .bind (.visit hsignature) fun _ =>
      .last (.inContext (.option hbody)) fun _ => .pure _) ?_⟩
  simp [Place.parts, hn, inTurn_append, inTurn_cons]

theorem coversTree_closure {isAsync : Bool} {signature body : Node}
    (hn : n.shape = .closure isAsync signature body) : CoversTree n := by
  intro scopes
  simp only [Node.children, hn, Shape.toList, List.forall_mem_cons] at h
  obtain ⟨hsignature, hbody, -⟩ := h
  rw [hn]
  refine ⟨_, .first (.inScope (congrArg Shape.opensScope hn) (Place.unknown?_eq_none hn rfl) <|
    .bind (.visit hsignature) fun _ => .last (.inContext (.visit hbody)) fun _ => .pure _) ?_⟩
  simp [Place.parts, hn, inTurn_cons]

theorem coversTree_struct {attrs : List Node} {modifiers : Modifiers} {name : Ident} {generics members : List Node}
    (hn : n.shape = .struct attrs modifiers name generics members) :
    CoversTree n := by
  intro scopes
  simp only [Node.children, hn, Shape.toList, List.forall_mem_append] at h
  obtain ⟨⟨hattrs, hgenerics⟩, hmembers⟩ := h
  have quiet : Place.unknown? ⟨.plain, scopes, n⟩ = none := Place.unknown?_eq_none hn rfl
  rw [hn]
  refine ⟨_, .late quiet (.bind (.attributes hattrs) fun _ => .inScope (congrArg Shape.opensScope hn) quiet <|
    .bind (.visits hgenerics) fun _ => .last (.visitScope hmembers) fun _ => .pure _) ?_⟩
  simp [Place.parts, hn]

theorem coversTree_enum {attrs : List Node} {modifiers : Modifiers} {name : Ident} {base : Option Node}
    {options : List Node} (hn : n.shape = .enum attrs modifiers name base options) : CoversTree n := by
  intro scopes
  simp only [Node.children, hn, Shape.toList, List.forall_mem_append, Option.mem_toList] at h
  obtain ⟨⟨hattrs, hbase⟩, hoptions⟩ := h
  have quiet : Place.unknown? ⟨.plain, scopes, n⟩ = none := Place.unknown?_eq_none hn rfl
  rw [hn]
  have opens : (⟨.plain, scopes, n⟩ : Place).node.opensScope = true := congrArg Shape.opensScope hn
  refine ⟨_, .late quiet (.of_eq (.bind (.attributes hattrs) fun _ => .bind (.option hbase) fun _ =>
    .inScope opens quiet <| .last (.visits hoptions) fun _ => .pure _) (List.append_assoc _ _ _)) ?_⟩
  simp [Place.parts, hn]

theorem coversTree_typeAlias {attrs : List Node} {modifiers : Modifiers} {name : Ident} {generics : List Node}
    {type : Node} (hn : n.shape = .typeAlias attrs modifiers name generics type) :
    CoversTree n := by
  intro scopes
  simp only [Node.children, hn, Shape.toList, List.forall_mem_append, List.forall_mem_singleton] at h
  obtain ⟨⟨hattrs, hgenerics⟩, htype⟩ := h
  have quiet : Place.unknown? ⟨.plain, scopes, n⟩ = none := Place.unknown?_eq_none hn rfl
  rw [hn]
  refine ⟨_, .late quiet (.bind (.attributes hattrs) fun _ => .inScope (congrArg Shape.opensScope hn) quiet <|
    .bind (.visits hgenerics) fun _ => .last (.visit htype) fun _ => .pure _) ?_⟩
  simp [Place.parts, hn, inTurn_append, inTurn_cons]

theorem coversTree_union {attrs : List Node} {modifiers : Modifiers} {name : Ident} {generics members : List Node}
    (hn : n.shape = .union attrs modifiers name generics members) :
    CoversTree n := by
  intro scopes
  simp only [Node.children, hn, Shape.toList, List.forall_mem_append] at h
  obtain ⟨⟨hattrs, hgenerics⟩, hmembers⟩ := h
  have quiet : Place.unknown? ⟨.plain, scopes, n⟩ = none := Place.unknown?_eq_none hn rfl
  rw [hn]
  refine ⟨_, .late quiet (.bind (.attributes hattrs) fun _ => .inScope (congrArg Shape.opensScope hn) quiet <|
    .bind (.visits hgenerics) fun _ => .last (.visits hmembers) fun _ => .pure _) ?_⟩
  simp [Place.parts, hn, inTurn_append]

theorem coversTree_block {statements : List Node} (hn : n.shape = .block statements) : CoversTree n := by
  intro scopes
  rw [Node.children, hn] at h
  rw [hn]
  refine ⟨_, .first (.inScope (congrArg Shape.opensScope hn) (Place.unknown?_eq_none hn rfl) <|
    .last (.visitScope h) fun _ => .pure _) ?_⟩
  simp [Place.parts, hn, Scopes.extend]

theorem coversTree_forLoop {init condition step : Option Node} {body : Node}
    (hn : n.shape = .forLoop init condition step body) : CoversTree n := by
  intro scopes
  simp only [Node.children, hn, Shape.toList, List.forall_mem_append, List.forall_mem_singleton,
    Option.mem_toList] at h
  obtain ⟨⟨⟨hinit, hcondition⟩, hstep⟩, hbody⟩ := h
  rw [hn]
  refine ⟨_, .first (.inScope (congrArg Shape.opensScope hn) (Place.unknown?_eq_none hn rfl) <|
    .bind (.option hinit) fun _ => .inContext <| .bind (.option hcondition) fun _ =>
      .bind (.option hstep) fun _ => .last (.visit hbody) fun _ => .pure _) ?_⟩
  simp [Place.parts, hn, inTurn_append, inTurn_cons]

theorem coversTree_ifElse {condition thenBranch : Node} {elseBranch : Option Node}
    (hn : n.shape = .ifElse condition thenBranch elseBranch) : CoversTree n := by
  intro scopes
  simp only [Node.children, hn, Shape.toList, List.forall_mem_cons, Option.mem_toList] at h
  obtain ⟨hcondition, hthen, helse⟩ := h
  have opens : bindsVariable condition = Node.opensScope n := (congrArg Shape.opensScope hn).symm
  rw [hn]
  show ∃ after, Covers (Binder.inScopeIf (bindsVariable condition) _) _ _ _
  rw [opens]
  refine Covers.inScopeIf ⟨.plain, scopes, n⟩ (condition :: thenBranch :: elseBranch.toList)
    (Place.unknown?_eq_none hn rfl) (fun inner => ?_) ?_
  · rw [Scopes.after_cons, Scopes.after_cons]
    refine .of_eq (.bind (.visit hcondition) fun _ => .bind (.visit hthen) fun _ =>
      .last (.option helse) fun _ => .pure _) ?_
    simp [inTurn_cons]
  · simp [Place.parts, hn, ← opens]

theorem coversTree_whileLoop {condition body : Node}
    (hn : n.shape = .whileLoop condition body) : CoversTree n := by
  intro scopes
  simp only [Node.children, hn, Shape.toList, List.forall_mem_cons] at h
  obtain ⟨hcondition, hbody, -⟩ := h
  have opens : bindsVariable condition = Node.opensScope n := (congrArg Shape.opensScope hn).symm
  rw [hn]
  show ∃ after, Covers (Binder.inScopeIf (bindsVariable condition) _) _ _ _
  rw [opens]
  refine Covers.inScopeIf ⟨.plain, scopes, n⟩ [condition, body] (Place.unknown?_eq_none hn rfl)
    (fun inner => ?_) ?_
  · rw [Scopes.after_cons]
    refine .of_eq (.bind (.visit hcondition) fun _ => .last (.inContext (.visit hbody)) fun _ => .pure _) ?_
    simp [inTurn_cons]
  · simp [Place.parts, hn, ← opens]

/-! ### Attributes -/

/-- A bare name before the arguments of an attribute is left as it is. -/
theorem coversAttribute_call {callee : Node} {args : List Node}
    (hn : n.shape = .call callee args) : CoversAttribute n := by
  intro scopes
  simp only [Node.children, hn, Shape.toList, List.forall_mem_cons] at h
  rw [hn]
  show ∃ after, Covers (if isName callee then _ else _) _ _ _
  by_cases hname : isName callee
  · rw [if_pos hname]
    have left : Covers (Pure.pure callee) scopes (scopes.after [callee])
        (Place.all ⟨.attributeCallee, scopes, callee⟩) := by
      rw [Scopes.after_singleton, declares_name hname, Scopes.extend_nil]
      exact .selector (isSelector_of_isName hname) Standing.noConfusion _ _
    have covers := left.bind fun callee => (Covers.visits h.2).last fun args =>
      .pure { n with shape := .call callee args }
    rw [pure_bind] at covers
    refine ⟨_, .silent (.of_shape hn rfl rfl) covers ?_⟩
    simp [Place.parts, hn]
  · rw [if_neg hname]
    have visited : Covers (Binder.visit (part callee)) scopes (scopes.after [callee])
        (Place.all ⟨.attributeCallee, scopes, callee⟩) :=
      (Covers.visit h.1).restand (by simpa using hname) Standing.noConfusion
    have traversed : Covers ((Shape.call (part callee) (args.map part)).traverse Binder.visit) _ _ _ :=
      visited.bind fun _ => .last (.visits h.2) fun _ => .pure _
    refine ⟨_, .silent (.of_shape hn rfl rfl) (traversed.last fun _ => .pure _) ?_⟩
    simp [Place.parts, hn]

end Parts

/-- An attribute is gone through as any node is, but for its name. -/
theorem coversAttribute (h : CoversTree n) (hcall : ∀ callee args, n.shape ≠ .call callee args) :
    CoversAttribute n := by
  intro scopes
  by_cases hname : isName n
  · rw [bindAttribute_name hname]
    exact ⟨_, .selector (isSelector_of_isName hname) Standing.noConfusion _ _⟩
  · rw [bindAttribute_other hname hcall]
    obtain ⟨after, covers⟩ := h scopes
    exact ⟨after, covers.restand (by simpa using hname) fun _ => hcall⟩

end Binder

end BraceLang
