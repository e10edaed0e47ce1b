import BraceLang.Proofs.Binding.Bound

/-! The binder on every construct of the language: if the parts of a node can be bound wherever they
    stand, so can the node (`Binds`). Most constructs are walked part by part (`isPlain`); the others have
    a lemma each, which follows the order of the binder's steps through the scopes that `Place.parts`
    gives. -/

namespace BraceLang

namespace Lexical

/-! ### Constructs without scopes, declarations or links of their own -/

/-- Whether a construct is walked part by part and does nothing else. -/
def isPlain {α : Type} : Shape α → Bool
  | .name _ | .named .. | .member .. | .macroName _ | .macroCall .. | .returned _ | .broken | .continued
  | .var .. | .func .. | .closure .. | .param .. | .generic .. | .struct .. | .field .. | .enum ..
  | .enumOption .. | .typeAlias .. | .union .. | .block _ | .ifElse .. | .whileLoop .. | .forLoop ..
  | .deferred _ => false
  | _ => true

theorem isPlain_map {α β : Type} (f : α → β) (s : Shape α) : isPlain (s.map f) = isPlain s := by
  cases s <;> rfl

theorem leaves_plain (n : Node) {parts : Shape (Node × List Declaration)} (h : isPlain parts) :
    leaves n parts = parts.toList.flatMap (·.2) := by
  cases parts <;> first | rfl | cases h

theorem declares_plain {n : Node} (h : isPlain n.shape) : declares n = n.children.flatMap declares := by
  rw [declares_eq, leaves_plain n (by rwa [isPlain_map]), Shape.toList_map, List.flatMap_map]
  rfl

theorem parts_plain {n : Node} {scopes : Scopes} (h : isPlain n.shape) :
    Place.parts ⟨.plain, scopes, n⟩ = inTurn .plain scopes n.children := by
  obtain ⟨id, range, resolved, shape⟩ := n
  cases shape with
  | call callee args => simp [Place.parts, Node.children, Shape.toList, inTurn, Scopes.after_singleton]
  | _ => first | rfl | cases h

theorem linked_of_use?_eq_none {p : Place} (h : p.use? = none) : p.Linked := by
  intro name hname
  rw [h] at hname
  cases hname

/-- A bare name or index that stands for no value uses nothing. -/
theorem allLinked_of_selector {p : Place} (h : p.node.isSelector) (hs : p.standing ≠ .plain) :
    p.AllLinked := by
  obtain ⟨standing, scopes, id, range, resolved, shape⟩ := p
  refine .of_parts (linked_of_use?_eq_none ?_) ?_
  all_goals cases shape <;> first | (cases h; done) | simp_all [Place.use?, Place.parts, Shape.toList, inTurn]

/-- A node that the binder has linked, with the parts it has bound. -/
theorem Bound.of_shape {n : Node} {scopes : Scopes} {shape : Shape Node} {resolved : Option NodeId}
    (hshape : shape.map Node.unlinked = n.shape.map Node.unlinked)
    (hlink : (⟨.plain, scopes, { n with resolved, shape }⟩ : Place).Linked)
    (hparts : ∀ q ∈ Place.parts ⟨.plain, scopes, { n with resolved, shape }⟩, q.AllLinked) :
    Bound .plain scopes [n] [{ n with resolved, shape }] :=
  .single (Node.unlinked_with hshape) (.of_parts hlink hparts)

/-! ### Bare names that are no uses -/

section Standings
variable {scopes : Scopes} {n n' : Node} {standing : Standing}

theorem isName_congr {m n : Node} (h : m.unlinked = n.unlinked) : Binder.isName m = Binder.isName n := by
  have shape := congrArg Node.shape h
  rw [Node.shape_unlinked, Node.shape_unlinked] at shape
  unfold Binder.isName
  generalize m.shape = s at shape
  generalize n.shape = t at shape
  cases s <;> cases t <;> first | rfl | cases shape

theorem isSelector_of_isName (h : Binder.isName n) : n.isSelector := by
  obtain ⟨id, range, resolved, shape⟩ := n
  cases shape <;> first | rfl | cases h

theorem declares_name (h : Binder.isName n) : declares n = [] := by
  obtain ⟨id, range, resolved, shape⟩ := n
  cases shape <;> first | rfl | cases h

theorem use?_standing (h : Binder.isName n = false) :
    Place.use? ⟨standing, scopes, n⟩ = Place.use? ⟨.plain, scopes, n⟩ := by
  obtain ⟨id, range, resolved, shape⟩ := n
  cases shape <;> first | rfl | cases h

theorem parts_standing (h : standing = .attribute → ∀ callee args, n.shape ≠ .call callee args) :
    Place.parts ⟨standing, scopes, n⟩ = Place.parts ⟨.plain, scopes, n⟩ := by
  obtain ⟨id, range, resolved, shape⟩ := n
  cases shape with
  | call callee args =>
    have : standing ≠ .attribute := fun ha => h ha callee args rfl
    simp [Place.parts, this]
  | _ => rfl

/-- A node that is no bare name is linked wherever it stands, unless it is an attribute that is a
    call. -/
theorem Place.AllLinked.restand (h : (⟨.plain, scopes, n⟩ : Place).AllLinked)
    (hn : Binder.isName n = false)
    (hs : standing = .attribute → ∀ callee args, n.shape ≠ .call callee args) :
    (⟨standing, scopes, n⟩ : Place).AllLinked := by
  refine .of_parts (fun name hname decl => ?_) fun q hq r hr => ?_
  · exact h _ (.refl _) name (use?_standing hn ▸ hname) decl
  · exact h r (.part (parts_standing hs ▸ hq) hr)

end Standings

end Lexical

namespace Binder
open Lexical

theorem passes_eq (n : Node) :
    passes n = ⟨bindWhole n (n.shape.map part), bindAttribute n (n.shape.map part)⟩ :=
  n.fold_eq _

theorem bindWhole_plain (n : Node) {parts : Shape Part} (h : isPlain parts) :
    bindWhole n parts = do return { n with shape := ← parts.traverse visit } := by
  cases parts <;> first | rfl | cases h

theorem bindAttribute_name {n : Node} (h : isName n) : bindAttribute n (n.shape.map part) = Pure.pure n := by
  obtain ⟨id, range, resolved, shape⟩ := n
  cases shape <;> first | rfl | cases h

/-- An attribute that is no bare name and no call is bound as any node. -/
theorem bindAttribute_other {n : Node} (name : ¬isName n) (call : ∀ callee args, n.shape ≠ .call callee args) :
    bindAttribute n (n.shape.map part) = bindWhole n (n.shape.map part) := by
  obtain ⟨id, range, resolved, shape⟩ := n
  cases shape <;> first | rfl | exact absurd rfl name | exact absurd rfl (call _ _)

section Plain
variable {scopes : Scopes}

/-- A plain construct of the same sort as before, with its parts bound. -/
def Rebuilt (scopes : Scopes) (s s' : Shape Node) : Prop :=
  s'.map Node.unlinked = s.map Node.unlinked ∧ Bound .plain scopes s.toList s'.toList

theorem Walks.traverse {s : Shape Node} (hs : isPlain s) (h : ∀ c ∈ s.toList, Binds c) :
    Walks ((s.map part).traverse Binder.visit) scopes (scopes.after s.toList) (Rebuilt scopes s) := by
  cases s
  case bool | int | float | char | str | null | dot | prim =>
    rw [Shape.toList, Scopes.after_nil]
    exact .pure (show Rebuilt _ _ _ from ⟨rfl, .nil⟩)
  case group | prefixed | postfixed | spread | fieldInit | exprStmt | pointer | optional =>
    refine .bind (.visit (h _ List.mem_cons_self)) fun x' hx => .pure ⟨?_, hx⟩
    simp [Shape.map, hx.node]
  case template | tuple | array | tupleType =>
    refine .bind (.visits h) fun xs' hxs => .pure ⟨?_, hxs⟩
    simp [Shape.map, hxs.unlinked]
  case yield =>
    refine .bind (.option fun c hc => h c (by simpa [Shape.toList] using hc)) fun x' hx =>
      .pure ⟨?_, hx⟩
    simp [Shape.map, hx.option]
  case binary | assign | cast =>
    rw [Shape.toList, Scopes.after_cons]
    refine .bind (.visit (h _ (by simp [Shape.toList]))) fun x' hx =>
      .bind (.visit (h _ (by simp [Shape.toList]))) fun y' hy => .pure ⟨?_, hx.cons hy⟩
    simp [Shape.map, hx.node, hy.node]
  case call | new | index | structLiteral =>
    rw [Shape.toList, Scopes.after_cons]
    refine .bind (.visit (h _ List.mem_cons_self)) fun x' hx =>
      .bind (.visits fun c hc => h c (List.mem_cons_of_mem _ hc)) fun xs' hxs => .pure ⟨?_, hx.cons hxs⟩
    simp [Shape.map, hx.node, hxs.unlinked]
  case signature | funcType =>
    rw [Shape.toList, Scopes.after_append]
    refine .bind (.visits fun c hc => h c (List.mem_append_left _ hc)) fun xs' hxs =>
      .bind (.option fun c hc => h c (List.mem_append_right _ (by simpa using hc))) fun x' hx =>
      .pure ⟨?_, hxs.append hx⟩
    simp [Shape.map, hxs.unlinked, hx.option]
  case arrayType =>
    rw [Shape.toList, Scopes.after_cons]
    refine .bind (.visit (h _ List.mem_cons_self)) fun x' hx =>
      .bind (.option fun c hc => h c (List.mem_cons_of_mem _ (by simpa using hc))) fun size' hsize =>
      .pure ⟨?_, hx.cons hsize⟩
    simp [Shape.map, hx.node, hsize.option]
  case ternary c t e =>
    rw [Shape.toList, List.cons_append, Scopes.after_cons, Scopes.after_append]
    refine .bind (.visit (h c (by simp [Shape.toList]))) fun c' hc =>
      .bind (.option fun x hx => h x (by simp_all [Shape.toList])) fun t' ht =>
      .bind (.visit (h e (by simp [Shape.toList]))) fun e' he => .pure ⟨?_, hc.cons (ht.append he)⟩
    simp [Shape.map, hc.node, ht.option, he.node]
  all_goals cases hs

theorem binds_plain {n : Node} (hn : isPlain n.shape) (h : ∀ c ∈ n.children, Binds c) : Binds n := by
  intro scopes
  rw [passes_eq, Scopes.after_singleton, declares_plain hn]
  show Walks (bindWhole n (n.shape.map part)) _ _ _
  rw [bindWhole_plain n (by rwa [isPlain_map])]
  refine .bind (.traverse hn h) fun shape hshape => .pure ?_
  have plain : isPlain shape := by
    rw [← isPlain_map Node.unlinked, hshape.1, isPlain_map]
    exact hn
  refine .of_shape hshape.1 (linked_of_use?_eq_none ?_) fun q hq => ?_
  · cases shape <;> first | rfl | cases plain
  · rw [parts_plain plain] at hq
    exact hshape.2.linked q hq

end Plain

/-! ### Uses, jumps and names that are no uses -/

section Links
variable {n : Node}

theorem binds_name {text : String} (hn : n.shape = .name text) : Binds n := by
  intro scopes
  rw [passes_eq, hn, Scopes.after_singleton, declares_eq, hn]
  rw [show leaves n _ = [] from rfl, Scopes.extend_nil]
  refine .bind (.resolve text n.range) fun resolved hresolved => .pure ?_
  refine .of_shape rfl (fun name hname decl => ?_) fun q hq => ?_
  · have : text = name := by simpa [Place.use?, hn] using hname
    exact this ▸ hresolved decl
  · simp [Place.parts, hn, Shape.toList, inTurn] at hq

theorem binds_named {head : Ident} {path : List Ident} {args : List Node}
    (hn : n.shape = .named head path args) (hargs : ∀ c ∈ args, Binds c) : Binds n := by
  intro scopes
  have hd : scopes.after [n] = scopes.after args := by
    simp [Scopes.after, declares_eq n, hn, leaves, Shape.map, Shape.toList, List.flatMap_map]
  rw [passes_eq, hn, hd]
  refine .bind (.resolve head.text head.range) fun resolved hresolved =>
    .bind (.visits hargs) fun args' hargs' => .pure ?_
  refine .of_shape (by simp [hn, Shape.map, hargs'.unlinked]) (fun name hname decl => ?_) hargs'.linked
  have : head.text = name := by simpa [Place.use?] using hname
  exact this ▸ hresolved decl

theorem binds_member {target member : Node} {optional : Bool}
    (hn : n.shape = .member target member optional) (htarget : Binds target)
    (hmember : member.isSelector) : Binds n := by
  intro scopes
  have leaf : declares member = [] := by
    obtain ⟨id, range, resolved, shape⟩ := member
    cases shape <;> first | rfl | cases hmember
  have hd : scopes.after [n] = scopes.after [target] := by
    simp [Scopes.after, declares_eq n, hn, leaves, Shape.map, Shape.toList, leaf]
  rw [passes_eq, hn, hd]
  refine .bind (.visit htarget) fun target' ht => .pure ?_
  refine .of_shape (by simp [hn, Shape.map, ht.node]) (linked_of_use?_eq_none rfl) fun q hq => ?_
  rcases List.mem_cons.mp hq with rfl | hq
  · exact ht.place
  · obtain rfl := List.mem_singleton.mp hq
    exact allLinked_of_selector hmember Standing.noConfusion

theorem binds_returned {value : Option Node} (hn : n.shape = .returned value)
    (hvalue : ∀ c ∈ value, Binds c) : Binds n := by
  intro scopes
  have hd : scopes.after [n] = scopes.after value.toList := by
    simp [Scopes.after, declares_eq n, hn, leaves, Shape.map, Shape.toList, Option.toList_map,
      List.flatMap_map]
  rw [passes_eq, hn, hd]
  refine .bind (.jump _ _ _) fun resolved _ => .bind (.option hvalue) fun value' hv => .pure ?_
  exact .of_shape (by simp [hn, Shape.map, hv.option]) (linked_of_use?_eq_none rfl) hv.linked

theorem binds_broken (hn : n.shape = .broken) : Binds n := by
  intro scopes
  rw [passes_eq, hn, Scopes.after_singleton, declares_eq, hn]
  rw [show leaves n _ = [] from rfl, Scopes.extend_nil]
  refine .bind (.jump _ _ _) fun resolved _ => .pure (.of_shape rfl (linked_of_use?_eq_none ?_) ?_)
  all_goals simp [Place.use?, Place.parts, hn, Shape.toList, inTurn]

theorem binds_continued (hn : n.shape = .continued) : Binds n := by
  intro scopes
  rw [passes_eq, hn, Scopes.after_singleton, declares_eq, hn]
  rw [show leaves n _ = [] from rfl, Scopes.extend_nil]
  refine .bind (.jump _ _ _) fun resolved _ => .pure (.of_shape rfl (linked_of_use?_eq_none ?_) ?_)
  all_goals simp [Place.use?, Place.parts, hn, Shape.toList, inTurn]

end Links

/-! ### Macros and attributes -/

section Standings
variable {scopes : Scopes} {n : Node} {standing : Standing}

/-- A bare name that stands for no value is left as it is. -/
theorem Walks.bareName (h : isName n) (hs : standing ≠ .plain) :
    Walks (Pure.pure n) scopes (scopes.after [n]) fun n' => Bound standing scopes [n] [n'] := by
  rw [Scopes.after_singleton, declares_name h, Scopes.extend_nil]
  exact .pure (.single rfl (allLinked_of_selector (isSelector_of_isName h) hs))

theorem Walks.macroTarget (h : Binds n) :
    Walks (visitMacroTarget (part n)) scopes (scopes.after [n]) fun n' =>
      Bound .macroTarget scopes [n] [n'] := by
  unfold visitMacroTarget
  rw [part_fst]
  by_cases hn : isName n
  · rw [if_pos hn]
    exact .bareName hn (by decide)
  · rw [if_neg hn]
    refine (Walks.visit h).mono fun n' hn' => .single hn'.node (hn'.place.restand ?_ fun h => by cases h)
    rw [isName_congr hn'.node]
    simpa using hn

theorem binds_macroName {target : Node} (hn : n.shape = .macroName target) (h : Binds target) :
    Binds n := by
  intro scopes
  have hd : scopes.after [n] = scopes.after [target] := by
    simp [Scopes.after, declares_eq n, hn, leaves, Shape.map, Shape.toList]
  rw [passes_eq, hn, hd]
  refine .bind (.macroTarget h) fun target' ht => .pure ?_
  exact .of_shape (by simp [hn, Shape.map, ht.node]) (linked_of_use?_eq_none rfl) ht.linked

theorem binds_macroCall {target : Node} {args : List Node} (hn : n.shape = .macroCall target args)
    (h : Binds target) (hargs : ∀ c ∈ args, Binds c) : Binds n := by
  intro scopes
  have hd : scopes.after [n] = (scopes.after [target]).after args := by
    rw [← Scopes.after_cons]
    simp [Scopes.after, declares_eq n, hn, leaves, Shape.map, Shape.toList, List.flatMap_map]
  rw [passes_eq, hn, hd]
  refine .bind (.macroTarget h) fun target' ht => .bind (.visits hargs) fun args' ha => .pure ?_
  refine .of_shape (by simp [hn, Shape.map, ht.node, ha.unlinked]) (linked_of_use?_eq_none rfl)
    fun q hq => ?_
  rcases List.mem_cons.mp hq with rfl | hq
  · exact ht.place
  · exact ha.linked q (ht.after scopes ▸ hq)

/-- The binder on an attribute that is a call: a bare name before the arguments is left as it is. -/
theorem bindsAttribute_call {callee : Node} {args : List Node} (hn : n.shape = .call callee args)
    (h : Binds callee) (hargs : ∀ c ∈ args, Binds c) : BindsAttribute n := by
  intro scopes
  have hd : scopes.after [n] = (scopes.after [callee]).after args := by
    rw [← Scopes.after_cons]
    simp [Scopes.after, declares_eq n, hn, leaves, Shape.map, Shape.toList, List.flatMap_map]
  have close {callee' : Node} {args' : List Node} (hc : Bound .attributeCallee scopes [callee] [callee'])
      (ha : Bound .plain (scopes.after [callee]) args args') :
      Bound .attribute scopes [n] [{ n with shape := .call callee' args' }] := by
    refine .single (Node.unlinked_with (by simp [hn, Shape.map, hc.node, ha.unlinked])) (.of_parts ?_ ?_)
    · exact linked_of_use?_eq_none rfl
    · intro q hq
      rcases List.mem_cons.mp hq with rfl | hq
      · exact hc.place
      · exact ha.linked q (hc.after scopes ▸ hq)
  rw [passes_eq, hn, hd]
  show Walks (if isName callee then _ else _) _ _ _
  by_cases hname : isName callee
  · rw [if_pos hname]
    have arguments : Walks ((args.map part).mapM visit) scopes ((scopes.after [callee]).after args)
        (Bound .plain (scopes.after [callee]) args) := by
      rw [Scopes.after_singleton, declares_name hname, Scopes.extend_nil]
      exact .visits hargs
    refine .bind arguments fun _ ha => .pure (close (.single rfl ?_) ha)
    exact allLinked_of_selector (isSelector_of_isName hname) Standing.noConfusion
  · rw [if_neg hname]
    have traversed : Walks ((Shape.call (part callee) (args.map part)).traverse visit) scopes
        ((scopes.after [callee]).after args) fun shape => ∃ callee' args', shape = .call callee' args' ∧
          Bound .attributeCallee scopes [callee] [callee'] ∧
            Bound .plain (scopes.after [callee]) args args' := by
      refine .bind (.visit h) fun callee' hc => .bind (.visits hargs) fun args' ha => .pure ?_
      refine ⟨callee', args', rfl, .single hc.node (hc.place.restand ?_ fun h => by cases h), ha⟩
      rw [isName_congr hc.node]
      simpa using hname
    refine .bind traversed fun shape hshape => .pure ?_
    obtain ⟨callee', args', rfl, hc, ha⟩ := hshape
    exact close hc ha

/-- An attribute is bound as any node is, but for its name. -/
theorem bindsAttribute (h : Binds n) (hcall : ∀ callee args, n.shape ≠ .call callee args) :
    BindsAttribute n := by
  intro scopes
  rw [passes_eq]
  by_cases hname : isName n
  · show Walks (bindAttribute n (n.shape.map part)) _ _ _
    rw [bindAttribute_name hname]
    exact .bareName hname (by decide)
  · show Walks (bindAttribute n (n.shape.map part)) _ _ _
    rw [bindAttribute_other hname hcall]
    have whole := h scopes
    rw [passes_eq] at whole
    refine whole.mono fun n' hn' => .single hn'.node (hn'.place.restand ?_ fun _ callee args hshape => ?_)
    · rw [isName_congr hn'.node]
      simpa using hname
    · have := congrArg Node.shape hn'.node
      rw [Node.shape_unlinked, Node.shape_unlinked, hshape] at this
      generalize hn : n.shape = shape at this hcall
      cases shape <;> first | exact hcall _ _ rfl | cases this

end Standings

end Binder

end BraceLang
