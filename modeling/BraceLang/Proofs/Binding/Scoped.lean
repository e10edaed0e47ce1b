import BraceLang.Proofs.Binding.Constructs

/-! The binder on the constructs that declare names or open a scope. -/

namespace BraceLang.Binder
open Lexical

variable {n : Node}

/-! ### Names declared after the parts -/

theorem binds_var {attrs : List Node} {modifiers : Modifiers} {isConst : Bool} {pattern : Pattern}
    {type init : Option Node} (hn : n.shape = .var attrs modifiers isConst pattern type init)
    (hattrs : ∀ c ∈ attrs, BindsAttribute c) (htype : ∀ c ∈ type, Binds c)
    (hinit : ∀ c ∈ init, Binds c) : Binds n := by
  intro scopes
  have hd : scopes.after [n] = (((scopes.after attrs).after type.toList).after init.toList).extend
      (pattern.names.map fun name => ⟨name.text, n.id⟩) := by
    simp [Scopes.after, declares_eq n, hn, leaves, Shape.map, Shape.toList, List.flatMap_map,
      Option.toList_map, Scopes.extend_extend]
  rw [passes_eq, hn, hd]
  refine .bind (.attributes hattrs) fun attrs' ha => .bind (.option htype) fun type' ht =>
    .bind (.option hinit) fun init' hi => .bind (.declareAll pattern.names n.id) fun _ _ => .pure ?_
  refine .of_shape (by simp [hn, Shape.map, ha.unlinked, ht.option, hi.option])
    (linked_of_use?_eq_none rfl) (List.forall_mem_append.mpr ⟨ha.linked, ?_⟩)
  rw [ha.after]
  exact (ht.append hi).linked

theorem binds_param {name : Ident} {type default : Option Node} (hn : n.shape = .param name type default)
    (htype : ∀ c ∈ type, Binds c) (hdefault : ∀ c ∈ default, Binds c) : Binds n := by
  intro scopes
  have hd : scopes.after [n] =
      ((scopes.after type.toList).after default.toList).extend [⟨name.text, n.id⟩] := by
    simp [Scopes.after, declares_eq n, hn, leaves, Shape.map, Shape.toList, List.flatMap_map,
      Option.toList_map, Scopes.extend_extend]
  rw [passes_eq, hn, hd]
  refine .bind (.option htype) fun type' ht => .bind (.option hdefault) fun default' hdef =>
    .bind (.declare name n.id) fun _ _ => .pure ?_
  exact .of_shape (by simp [hn, Shape.map, ht.option, hdef.option]) (linked_of_use?_eq_none rfl)
    (ht.append hdef).linked

theorem binds_generic {name : Ident} {constraints : List Node} (hn : n.shape = .generic name constraints)
    (h : ∀ c ∈ constraints, Binds c) : Binds n := by
  intro scopes
  have hd : scopes.after [n] = (scopes.after constraints).extend [⟨name.text, n.id⟩] := by
    simp [Scopes.after, declares_eq n, hn, leaves, Shape.map, Shape.toList, List.flatMap_map,
      Scopes.extend_extend]
  rw [passes_eq, hn, hd]
  refine .bind (.visits h) fun constraints' hc => .bind (.declare name n.id) fun _ _ => .pure ?_
  exact .of_shape (by simp [hn, Shape.map, hc.unlinked]) (linked_of_use?_eq_none rfl) hc.linked

theorem binds_field {attrs : List Node} {isPrivate : Bool} {name : Ident} {type : Node}
    {default : Option Node} (hn : n.shape = .field attrs isPrivate name type default)
    (hattrs : ∀ c ∈ attrs, BindsAttribute c) (htype : Binds type) (hdefault : ∀ c ∈ default, Binds c) :
    Binds n := by
  intro scopes
  have hd : scopes.after [n] =
      (((scopes.after attrs).after [type]).after default.toList).extend [⟨name.text, n.id⟩] := by
    simp [Scopes.after, declares_eq n, hn, leaves, Shape.map, Shape.toList, List.flatMap_map,
      Option.toList_map, Scopes.extend_extend]
  rw [passes_eq, hn, hd]
  refine .bind (.attributes hattrs) fun attrs' ha => .bind (.visit htype) fun type' ht =>
    .bind (.option hdefault) fun default' hdef => .bind (.declare name n.id) fun _ _ => .pure ?_
  refine .of_shape (by simp [hn, Shape.map, ha.unlinked, ht.node, hdef.option])
    (linked_of_use?_eq_none rfl) (List.forall_mem_append.mpr ⟨ha.linked, ?_⟩)
  rw [ha.after]
  exact (ht.cons hdef).linked

theorem binds_enumOption {attrs : List Node} {name : Ident} {value : Option Node}
    (hn : n.shape = .enumOption attrs name value) (hattrs : ∀ c ∈ attrs, BindsAttribute c)
    (hvalue : ∀ c ∈ value, Binds c) : Binds n := by
  intro scopes
  have hd : scopes.after [n] = ((scopes.after attrs).after value.toList).extend [⟨name.text, n.id⟩] := by
    simp [Scopes.after, declares_eq n, hn, leaves, Shape.map, Shape.toList, List.flatMap_map,
      Option.toList_map, Scopes.extend_extend]
  rw [passes_eq, hn, hd]
  refine .bind (.attributes hattrs) fun attrs' ha => .bind (.option hvalue) fun value' hv =>
    .bind (.declare name n.id) fun _ _ => .pure ?_
  refine .of_shape (by simp [hn, Shape.map, ha.unlinked, hv.option]) (linked_of_use?_eq_none rfl)
    (List.forall_mem_append.mpr ⟨ha.linked, ?_⟩)
  rw [ha.after]
  exact hv.linked

/-! ### Declarations with a scope -/

theorem binds_func {attrs : List Node} {modifiers : Modifiers} {isAsync : Bool} {name : Ident}
    {operator : Option Kind} {generics : List Node} {signature : Node} {body : Option Node}
    (hn : n.shape = .func attrs modifiers isAsync name operator generics signature body)
    (hattrs : ∀ c ∈ attrs, BindsAttribute c) (hgenerics : ∀ c ∈ generics, Binds c)
    (hsignature : Binds signature) (hbody : ∀ c ∈ body, Binds c) : Binds n := by
  intro scopes
  have hd : scopes.after [n] = scopes.after attrs := by
    simp [Scopes.after, declares_eq n, hn, leaves, Shape.map, List.flatMap_map]
  rw [passes_eq, hn, hd]
  refine .bind (.attributes hattrs) fun attrs' ha => .inScope <|
    .bind (.visits hgenerics) fun generics' hg => .bind (.visit hsignature) fun signature' hs =>
      .bind (.inContext (.option hbody)) fun body' hb => .pure ?_
  refine .of_shape (by simp [hn, Shape.map, ha.unlinked, hg.unlinked, hs.node, hb.option])
    (linked_of_use?_eq_none rfl) (List.forall_mem_append.mpr ⟨ha.linked, ?_⟩)
  rw [ha.after]
  exact (hg.append (hs.cons hb)).linked

theorem binds_closure {isAsync : Bool} {signature body : Node}
    (hn : n.shape = .closure isAsync signature body) (hsignature : Binds signature)
    (hbody : Binds body) : Binds n := by
  intro scopes
  have hd : scopes.after [n] = scopes := by
    simp [Scopes.after, declares_eq n, hn, leaves, Shape.map]
  rw [passes_eq, hn, hd]
  refine .inScope <| .bind (.visit hsignature) fun signature' hs =>
    .bind (.inContext (.visit hbody)) fun body' hb => .pure ?_
  exact .of_shape (by simp [hn, Shape.map, hs.node, hb.node]) (linked_of_use?_eq_none rfl)
    (hs.cons hb).linked

theorem binds_struct {attrs : List Node} {modifiers : Modifiers} {name : Ident}
    {generics members : List Node} (hn : n.shape = .struct attrs modifiers name generics members)
    (hattrs : ∀ c ∈ attrs, BindsAttribute c) (hgenerics : ∀ c ∈ generics, Binds c)
    (hmembers : ∀ c ∈ members, Binds c) : Binds n := by
  intro scopes
  have hd : scopes.after [n] = scopes.after attrs := by
    simp [Scopes.after, declares_eq n, hn, leaves, Shape.map, List.flatMap_map]
  rw [passes_eq, hn, hd]
  refine .bind (.attributes hattrs) fun attrs' ha => .inScope <|
    .bind (.visits hgenerics) fun generics' hg => .bind (.visitScope hmembers) fun members' hm => .pure ?_
  refine .of_shape (by simp [hn, Shape.map, ha.unlinked, hg.unlinked, hm.unlinked])
    (linked_of_use?_eq_none rfl) (List.forall_mem_append.mpr ⟨ha.linked, ?_⟩)
  refine List.forall_mem_append.mpr ⟨?_, ?_⟩
  · rw [ha.after]
    exact hg.linked
  · rw [ha.after, hg.after, hoisted_congr hm.unlinked]
    exact hm.linked

theorem binds_enum {attrs : List Node} {modifiers : Modifiers} {name : Ident} {base : Option Node}
    {options : List Node} (hn : n.shape = .enum attrs modifiers name base options)
    (hattrs : ∀ c ∈ attrs, BindsAttribute c) (hbase : ∀ c ∈ base, Binds c)
    (hoptions : ∀ c ∈ options, Binds c) : Binds n := by
  intro scopes
  have hd : scopes.after [n] = (scopes.after attrs).after base.toList := by
    simp [Scopes.after, declares_eq n, hn, leaves, Shape.map, List.flatMap_map, Option.toList_map,
      Scopes.extend_extend]
  rw [passes_eq, hn, hd]
  refine .bind (.attributes hattrs) fun attrs' ha => .bind (.option hbase) fun base' hb =>
    .inScope <| .bind (.visits hoptions) fun options' ho => .pure ?_
  refine .of_shape (by simp [hn, Shape.map, ha.unlinked, hb.option, ho.unlinked])
    (linked_of_use?_eq_none rfl) (List.forall_mem_append.mpr ⟨ha.linked, ?_⟩)
  refine List.forall_mem_append.mpr ⟨?_, ?_⟩
  · rw [ha.after]
    exact hb.linked
  · rw [ha.after, hb.after]
    exact ho.linked

theorem binds_typeAlias {attrs : List Node} {modifiers : Modifiers} {name : Ident} {generics : List Node}
    {type : Node} (hn : n.shape = .typeAlias attrs modifiers name generics type)
    (hattrs : ∀ c ∈ attrs, BindsAttribute c) (hgenerics : ∀ c ∈ generics, Binds c) (htype : Binds type) :
    Binds n := by
  intro scopes
  have hd : scopes.after [n] = scopes.after attrs := by
    simp [Scopes.after, declares_eq n, hn, leaves, Shape.map, List.flatMap_map]
  rw [passes_eq, hn, hd]
  refine .bind (.attributes hattrs) fun attrs' ha => .inScope <|
    .bind (.visits hgenerics) fun generics' hg => .bind (.visit htype) fun type' ht => .pure ?_
  refine .of_shape (by simp [hn, Shape.map, ha.unlinked, hg.unlinked, ht.node])
    (linked_of_use?_eq_none rfl) (List.forall_mem_append.mpr ⟨ha.linked, ?_⟩)
  rw [ha.after]
  exact (hg.append ht).linked

theorem binds_union {attrs : List Node} {modifiers : Modifiers} {name : Ident}
    {generics members : List Node} (hn : n.shape = .union attrs modifiers name generics members)
    (hattrs : ∀ c ∈ attrs, BindsAttribute c) (hgenerics : ∀ c ∈ generics, Binds c)
    (hmembers : ∀ c ∈ members, Binds c) : Binds n := by
  intro scopes
  have hd : scopes.after [n] = scopes.after attrs := by
    simp [Scopes.after, declares_eq n, hn, leaves, Shape.map, List.flatMap_map]
  rw [passes_eq, hn, hd]
  refine .bind (.attributes hattrs) fun attrs' ha => .inScope <|
    .bind (.visits hgenerics) fun generics' hg => .bind (.visits hmembers) fun members' hm => .pure ?_
  refine .of_shape (by simp [hn, Shape.map, ha.unlinked, hg.unlinked, hm.unlinked])
    (linked_of_use?_eq_none rfl) (List.forall_mem_append.mpr ⟨ha.linked, ?_⟩)
  rw [ha.after]
  exact (hg.append hm).linked

/-! ### Statements -/

theorem binds_block {statements : List Node} (hn : n.shape = .block statements)
    (h : ∀ c ∈ statements, Binds c) : Binds n := by
  intro scopes
  have hd : scopes.after [n] = scopes := by
    simp [Scopes.after, declares_eq n, hn, leaves, Shape.map]
  rw [passes_eq, hn, hd]
  refine .inScope <| .bind (.visitScope h) fun statements' hs => .pure ?_
  refine .of_shape (by simp [hn, Shape.map, hs.unlinked]) (linked_of_use?_eq_none rfl) fun q hq => ?_
  refine hs.linked q ?_
  show q ∈ inTurn .plain (hoisted statements :: scopes) statements'
  rw [← hoisted_congr hs.unlinked]
  exact hq

/-- A construct has a scope of its own exactly if its condition declares variables. -/
theorem Walks.inScopeIf {m : BindM Node} {condition : Node} {rest : List Node} {scopes : Scopes}
    {post : Node → Prop}
    (h : ∀ inner : Scopes, inner = (if bindsVariable condition then [] :: scopes else scopes) →
      Walks m inner (inner.after (condition :: rest)) post) :
    Walks (Binder.inScopeIf (isVariable condition) m) scopes
      (if bindsVariable condition then scopes else scopes.after (condition :: rest)) post := by
  have same : isVariable condition = bindsVariable condition := rfl
  rw [same]
  cases hc : bindsVariable condition
  · exact h scopes (by simp [hc])
  · exact Walks.inScope (h ([] :: scopes) (by simp [hc]))

theorem binds_ifElse {condition thenBranch : Node} {elseBranch : Option Node}
    (hn : n.shape = .ifElse condition thenBranch elseBranch) (hcondition : Binds condition)
    (hthen : Binds thenBranch) (helse : ∀ c ∈ elseBranch, Binds c) : Binds n := by
  intro scopes
  have hd : scopes.after [n] = if bindsVariable condition then scopes
      else scopes.after (condition :: thenBranch :: elseBranch.toList) := by
    split <;> simp_all [Scopes.after, declares_eq n, leaves, Shape.map, Shape.toList, List.flatMap_map,
      Option.toList_map]
  rw [passes_eq, hn, hd]
  refine .inScopeIf fun inner hinner => ?_
  rw [Scopes.after_cons, Scopes.after_cons]
  refine .bind (.visit hcondition) fun condition' hc => .bind (.visit hthen) fun thenBranch' ht =>
    .bind (.option helse) fun elseBranch' he => .pure ?_
  refine .of_shape (by simp [hn, Shape.map, hc.node, ht.node, he.option]) (linked_of_use?_eq_none rfl)
    fun q hq => (hc.cons (ht.cons he)).linked q ?_
  rw [hinner, part_fst, ← bindsVariable_congr hc.node]
  exact hq

theorem binds_whileLoop {condition body : Node} (hn : n.shape = .whileLoop condition body)
    (hcondition : Binds condition) (hbody : Binds body) : Binds n := by
  intro scopes
  have hd : scopes.after [n] = if bindsVariable condition then scopes
      else scopes.after [condition, body] := by
    split <;> simp_all [Scopes.after, declares_eq n, leaves, Shape.map, Shape.toList]
  rw [passes_eq, hn, hd]
  refine .inScopeIf fun inner hinner => ?_
  rw [Scopes.after_cons]
  refine .bind (.visit hcondition) fun condition' hc =>
    .bind (.inContext (.visit hbody)) fun body' hb => .pure ?_
  refine .of_shape (by simp [hn, Shape.map, hc.node, hb.node]) (linked_of_use?_eq_none rfl)
    fun q hq => (hc.cons hb).linked q ?_
  rw [hinner, part_fst, ← bindsVariable_congr hc.node]
  exact hq

theorem binds_forLoop {init condition step : Option Node} {body : Node}
    (hn : n.shape = .forLoop init condition step body) (hinit : ∀ c ∈ init, Binds c)
    (hcondition : ∀ c ∈ condition, Binds c) (hstep : ∀ c ∈ step, Binds c) (hbody : Binds body) :
    Binds n := by
  intro scopes
  have hd : scopes.after [n] = scopes := by
    simp [Scopes.after, declares_eq n, hn, leaves, Shape.map]
  rw [passes_eq, hn, hd]
  refine .inScope <| .bind (.option hinit) fun init' hi => .inContext <|
    .bind (.option hcondition) fun condition' hc => .bind (.option hstep) fun step' hs =>
      .bind (.visit hbody) fun body' hb => .pure ?_
  refine .of_shape (by simp [hn, Shape.map, hi.option, hc.option, hs.option, hb.node])
    (linked_of_use?_eq_none rfl) ?_
  have all := hi.append (hc.append (hs.append hb))
  rw [← List.append_assoc, ← List.append_assoc, ← List.append_assoc, ← List.append_assoc] at all
  exact all.linked

theorem binds_deferred {stmt : Node} (hn : n.shape = .deferred stmt) (h : Binds stmt) : Binds n := by
  intro scopes
  have hd : scopes.after [n] = (scopes.extend (hoisted? stmt).toList).after [stmt] := by
    simp [Scopes.after, declares_eq n, hn, leaves, Shape.map, Scopes.extend_extend]
  rw [passes_eq, hn, hd]
  refine .bind (.hoist stmt) fun _ _ => .bind (.visit h) fun stmt' hs => .pure ?_
  refine .of_shape (by simp [hn, Shape.map, hs.node]) (linked_of_use?_eq_none rfl) fun q hq => ?_
  obtain rfl := List.mem_singleton.mp hq
  rw [hoisted_singleton, hoisted?_congr hs.node]
  exact hs.place

end BraceLang.Binder
