import BraceLang.Proofs.Binding.Telling.Constructs

/-! What the binder reports on the constructs that declare names or open a scope. -/

namespace BraceLang.Binder
open Lexical

variable {n : Node}

/-! ### Names declared after the parts -/

theorem settles_var {attrs : List Node} {modifiers : Modifiers} {isConst : Bool} {pattern : Pattern}
    {type init : Option Node} (hn : n.shape = .var attrs modifiers isConst pattern type init)
    (hattrs : ∀ c ∈ attrs, SettlesAttribute c) (htype : ∀ c ∈ type, Settles c)
    (hinit : ∀ c ∈ init, Settles c) : Settles n := by
  intro contexts before
  have hd : before ++ introduced n = before ++ introducedBy attrs ++ introducedBy type.toList ++
      introducedBy init.toList ++ pattern.names.map (⟨·, n.id⟩) := by
    simp [introduced_eq n, hn, introduces, Shape.map, Shape.toList, List.flatMap_map, Option.toList_map,
      introducedBy]
  rw [passes_eq, hn, hd]
  refine .bind (.attributes hattrs) fun attrs' _ ha => .bind (.option htype) fun type' _ ht =>
    .bind (.option hinit) fun init' _ hi => .returning (.declareAll pattern.names n.id) fun _ _ hnames => ?_
  refine .unscoped (by simp [opened?, hn]) (by simp [hn, Shape.map, ha.unlinked, ht.option, hi.option]) rfl rfl
    ((ha.seated .other).append ((ht.append hi).seated .other)) rfl ?_
  rw [hnames, add_zero]

theorem settles_param {name : Ident} {type default : Option Node} (hn : n.shape = .param name type default)
    (htype : ∀ c ∈ type, Settles c) (hdefault : ∀ c ∈ default, Settles c) : Settles n := by
  intro contexts before
  have hd : before ++ introduced n =
      before ++ introducedBy type.toList ++ introducedBy default.toList ++ [⟨name, n.id⟩] := by
    simp [introduced_eq n, hn, introduces, Shape.map, Shape.toList, List.flatMap_map, Option.toList_map,
      introducedBy]
  rw [passes_eq, hn, hd]
  refine .bind (.option htype) fun type' _ ht => .bind (.option hdefault) fun default' _ hdef =>
    .returning (.declare name n.id) fun _ _ hname => ?_
  refine .unscoped (by simp [opened?, hn]) (by simp [hn, Shape.map, ht.option, hdef.option]) rfl rfl
    ((ht.append hdef).seated .other) rfl ?_
  rw [hname, add_zero]

theorem settles_generic {name : Ident} {constraints : List Node} (hn : n.shape = .generic name constraints)
    (h : ∀ c ∈ constraints, Settles c) : Settles n := by
  intro contexts before
  have hd : before ++ introduced n = before ++ introducedBy constraints ++ [⟨name, n.id⟩] := by
    simp [introduced_eq n, hn, introduces, Shape.map, Shape.toList, List.flatMap_map, introducedBy]
  rw [passes_eq, hn, hd]
  refine .bind (.visits h) fun constraints' _ hc => .returning (.declare name n.id) fun _ _ hname => ?_
  refine .unscoped (by simp [opened?, hn]) (by simp [hn, Shape.map, hc.unlinked]) rfl rfl (hc.seated .other) rfl ?_
  rw [hname, add_zero]

theorem settles_field {attrs : List Node} {isPrivate : Bool} {name : Ident} {type : Node}
    {default : Option Node} (hn : n.shape = .field attrs isPrivate name type default)
    (hattrs : ∀ c ∈ attrs, SettlesAttribute c) (htype : Settles type)
    (hdefault : ∀ c ∈ default, Settles c) : Settles n := by
  intro contexts before
  have hd : before ++ introduced n = before ++ introducedBy attrs ++ introduced type ++
      introducedBy default.toList ++ [⟨name, n.id⟩] := by
    simp [introduced_eq n, hn, introduces, Shape.map, Shape.toList, List.flatMap_map, Option.toList_map,
      introducedBy]
  rw [passes_eq, hn, hd]
  refine .bind (.attributes hattrs) fun attrs' _ ha => .bind (.visit htype) fun type' _ ht =>
    .bind (.option hdefault) fun default' _ hdef => .returning (.declare name n.id) fun _ _ hname => ?_
  refine .unscoped (by simp [opened?, hn]) (by simp [hn, Shape.map, ha.unlinked, ht.node, hdef.option]) rfl rfl
    ((ha.seated .other).append ((ht.cons hdef).seated .other)) rfl ?_
  rw [hname, add_zero]

theorem settles_enumOption {attrs : List Node} {name : Ident} {value : Option Node}
    (hn : n.shape = .enumOption attrs name value) (hattrs : ∀ c ∈ attrs, SettlesAttribute c)
    (hvalue : ∀ c ∈ value, Settles c) : Settles n := by
  intro contexts before
  have hd : before ++ introduced n =
      before ++ introducedBy attrs ++ introducedBy value.toList ++ [⟨name, n.id⟩] := by
    simp [introduced_eq n, hn, introduces, Shape.map, Shape.toList, List.flatMap_map, Option.toList_map,
      introducedBy]
  rw [passes_eq, hn, hd]
  refine .bind (.attributes hattrs) fun attrs' _ ha => .bind (.option hvalue) fun value' _ hv =>
    .returning (.declare name n.id) fun _ _ hname => ?_
  refine .unscoped (by simp [opened?, hn]) (by simp [hn, Shape.map, ha.unlinked, hv.option]) rfl rfl
    ((ha.seated .other).append (hv.seated .other)) rfl ?_
  rw [hname, add_zero]

/-! ### Declarations with a scope -/

theorem settles_func {attrs : List Node} {modifiers : Modifiers} {isAsync : Bool} {name : Ident}
    {operator : Option Kind} {generics : List Node} {signature : Node} {body : Option Node}
    (hn : n.shape = .func attrs modifiers isAsync name operator generics signature body)
    (hattrs : ∀ c ∈ attrs, SettlesAttribute c) (hgenerics : ∀ c ∈ generics, Settles c)
    (hsignature : Settles signature) (hbody : ∀ c ∈ body, Settles c) : Settles n := by
  intro contexts before
  have hd : introduced n = introducedBy attrs := by
    simp [introduced_eq n, hn, introduces, Shape.map, List.flatMap_map, introducedBy]
  have hov : overlaps n =
      redefined ([] ++ introducedBy generics ++ introduced signature ++ introducedBy body.toList) := by
    simp [overlaps, opened?, hn]
  rw [passes_eq, hn, hd]
  refine .bind (.attributes hattrs) fun attrs' _ ha => .inScope <|
    .bind (.visits hgenerics) fun generics' _ hg => .bind (.visit hsignature) fun signature' _ hs =>
      .returning (.inContext (.option hbody)) fun body' _ hb => ?_
  refine .rebuilt (by simp [hn, Shape.map, ha.unlinked, hg.unlinked, hs.node, hb.option]) rfl rfl
    ((ha.seated .other).append (((hg.append hs).seated .other).append (hb.seated .function))) rfl ?_
  rw [hov]
  abel

theorem settles_closure {isAsync : Bool} {signature body : Node}
    (hn : n.shape = .closure isAsync signature body) (hsignature : Settles signature)
    (hbody : Settles body) : Settles n := by
  intro contexts before
  have hd : before ++ introduced n = before := by simp [introduced_eq n, hn, introduces, Shape.map]
  have hov : overlaps n = redefined ([] ++ introduced signature ++ introduced body) := by
    simp [overlaps, opened?, hn]
  rw [passes_eq, hn, hd]
  refine .inScope <| .bind (.visit hsignature) fun signature' _ hs =>
    .returning (.inContext (.visit hbody)) fun body' _ hb => ?_
  refine .rebuilt (by simp [hn, Shape.map, hs.node, hb.node]) rfl rfl
    ((hs.seated .other).append (hb.seated .closure)) rfl ?_
  rw [hov, add_comm]

theorem settles_struct {attrs : List Node} {modifiers : Modifiers} {name : Ident}
    {generics members : List Node} (hn : n.shape = .struct attrs modifiers name generics members)
    (hattrs : ∀ c ∈ attrs, SettlesAttribute c) (hgenerics : ∀ c ∈ generics, Settles c)
    (hmembers : ∀ c ∈ members, Settles c) : Settles n := by
  intro contexts before
  have hd : introduced n = introducedBy attrs := by
    simp [introduced_eq n, hn, introduces, Shape.map, List.flatMap_map, introducedBy]
  have hov : overlaps n = redefined ([] ++ introducedBy generics ++ introducedAhead members) := by
    simp [overlaps, opened?, hn]
  rw [passes_eq, hn, hd]
  refine .bind (.attributes hattrs) fun attrs' _ ha => .inScope <|
    .bind (.visits hgenerics) fun generics' _ hg => .returning (.visitScope hmembers) fun members' _ hm => ?_
  refine .rebuilt (by simp [hn, Shape.map, ha.unlinked, hg.unlinked, hm.unlinked]) rfl rfl
    ((ha.seated .other).append ((hg.append hm).seated .other)) rfl ?_
  rw [hov]
  abel

theorem settles_enum {attrs : List Node} {modifiers : Modifiers} {name : Ident} {base : Option Node}
    {options : List Node} (hn : n.shape = .enum attrs modifiers name base options)
    (hattrs : ∀ c ∈ attrs, SettlesAttribute c) (hbase : ∀ c ∈ base, Settles c)
    (hoptions : ∀ c ∈ options, Settles c) : Settles n := by
  intro contexts before
  have hd : before ++ introduced n = before ++ introducedBy attrs ++ introducedBy base.toList := by
    simp [introduced_eq n, hn, introduces, Shape.map, List.flatMap_map, Option.toList_map, introducedBy]
  have hov : overlaps n = redefined ([] ++ introducedBy options) := by simp [overlaps, opened?, hn]
  rw [passes_eq, hn, hd]
  refine .bind (.attributes hattrs) fun attrs' _ ha => .bind (.option hbase) fun base' _ hb =>
    .inScope <| .returning (.visits hoptions) fun options' _ ho => ?_
  refine .rebuilt (by simp [hn, Shape.map, ha.unlinked, hb.option, ho.unlinked]) rfl rfl
    ((ha.seated .other).append ((hb.append ho).seated .other)) rfl ?_
  rw [hov]
  abel

theorem settles_typeAlias {attrs : List Node} {modifiers : Modifiers} {name : Ident}
    {generics : List Node} {type : Node} (hn : n.shape = .typeAlias attrs modifiers name generics type)
    (hattrs : ∀ c ∈ attrs, SettlesAttribute c) (hgenerics : ∀ c ∈ generics, Settles c)
    (htype : Settles type) : Settles n := by
  intro contexts before
  have hd : introduced n = introducedBy attrs := by
    simp [introduced_eq n, hn, introduces, Shape.map, List.flatMap_map, introducedBy]
  have hov : overlaps n = redefined ([] ++ introducedBy generics ++ introduced type) := by
    simp [overlaps, opened?, hn]
  rw [passes_eq, hn, hd]
  refine .bind (.attributes hattrs) fun attrs' _ ha => .inScope <|
    .bind (.visits hgenerics) fun generics' _ hg => .returning (.visit htype) fun type' _ ht => ?_
  refine .rebuilt (by simp [hn, Shape.map, ha.unlinked, hg.unlinked, ht.node]) rfl rfl
    ((ha.seated .other).append ((hg.append ht).seated .other)) rfl ?_
  rw [hov]
  abel

theorem settles_union {attrs : List Node} {modifiers : Modifiers} {name : Ident}
    {generics members : List Node} (hn : n.shape = .union attrs modifiers name generics members)
    (hattrs : ∀ c ∈ attrs, SettlesAttribute c) (hgenerics : ∀ c ∈ generics, Settles c)
    (hmembers : ∀ c ∈ members, Settles c) : Settles n := by
  intro contexts before
  have hd : introduced n = introducedBy attrs := by
    simp [introduced_eq n, hn, introduces, Shape.map, List.flatMap_map, introducedBy]
  have hov : overlaps n = redefined ([] ++ introducedBy generics ++ introducedBy members) := by
    simp [overlaps, opened?, hn]
  rw [passes_eq, hn, hd]
  refine .bind (.attributes hattrs) fun attrs' _ ha => .inScope <|
    .bind (.visits hgenerics) fun generics' _ hg => .returning (.visits hmembers) fun members' _ hm => ?_
  refine .rebuilt (by simp [hn, Shape.map, ha.unlinked, hg.unlinked, hm.unlinked]) rfl rfl
    ((ha.seated .other).append ((hg.append hm).seated .other)) rfl ?_
  rw [hov]
  abel

/-! ### Statements -/

theorem settles_block {statements : List Node} (hn : n.shape = .block statements)
    (h : ∀ c ∈ statements, Settles c) : Settles n := by
  intro contexts before
  have hd : before ++ introduced n = before := by simp [introduced_eq n, hn, introduces, Shape.map]
  have hov : overlaps n = redefined ([] ++ introducedAhead statements) := by simp [overlaps, opened?, hn]
  rw [passes_eq, hn, hd]
  refine .inScope <| .returning (.visitScope h) fun statements' _ hs => ?_
  refine .rebuilt (by simp [hn, Shape.map, hs.unlinked]) rfl rfl (hs.seated .other) rfl ?_
  rw [hov, add_comm]

/-- A construct has a scope of its own exactly if its condition declares variables. -/
theorem Tells.inScopeIf {m : BindM Node} {condition : Node} {rest : List Node} {contexts : List Context}
    {before : List Introduction} {post : Node → Account → Prop}
    (h : ∀ inner, Tells contexts inner (inner ++ introducedBy (condition :: rest)) m fun n' told =>
      post n' (told + if bindsVariable condition then redefined (introducedBy (condition :: rest)) else 0)) :
    Tells contexts before
      (before ++ if bindsVariable condition then [] else introducedBy (condition :: rest))
      (Binder.inScopeIf (isVariable condition) m) post := by
  have same : isVariable condition = bindsVariable condition := rfl
  rw [same]
  cases hc : bindsVariable condition with
  | false => simpa [hc, Binder.inScopeIf] using h before
  | true =>
    have inner := h []
    rw [hc, List.nil_append] at inner
    rw [if_pos rfl, List.append_nil]
    exact Tells.inScope inner

theorem settles_ifElse {condition thenBranch : Node} {elseBranch : Option Node}
    (hn : n.shape = .ifElse condition thenBranch elseBranch) (hcondition : Settles condition)
    (hthen : Settles thenBranch) (helse : ∀ c ∈ elseBranch, Settles c) : Settles n := by
  intro contexts before
  have hd : introduced n = if bindsVariable condition then []
      else introducedBy (condition :: thenBranch :: elseBranch.toList) := by
    simp [introduced_eq n, hn, introduces, Shape.map, Shape.toList, List.flatMap_map, Option.toList_map,
      introducedBy]
  have hov : overlaps n = if bindsVariable condition
      then redefined (introducedBy (condition :: thenBranch :: elseBranch.toList)) else 0 := by
    simp only [overlaps, opened?, hn]
    split <;> rfl
  rw [passes_eq, hn, hd]
  refine .inScopeIf fun inner => ?_
  rw [show inner ++ introducedBy (condition :: thenBranch :: elseBranch.toList) =
    inner ++ introduced condition ++ introduced thenBranch ++ introducedBy elseBranch.toList by simp]
  refine .bind (.visit hcondition) fun condition' _ hc => .bind (.visit hthen) fun thenBranch' _ ht =>
    .returning (.option helse) fun elseBranch' _ he => ?_
  refine .rebuilt (by simp [hn, Shape.map, hc.node, ht.node, he.option]) rfl rfl
    ((hc.cons (ht.cons he)).seated .other) rfl ?_
  rw [hov, add_comm]

theorem settles_whileLoop {condition body : Node} (hn : n.shape = .whileLoop condition body)
    (hcondition : Settles condition) (hbody : Settles body) : Settles n := by
  intro contexts before
  have hd : introduced n = if bindsVariable condition then [] else introducedBy [condition, body] := by
    simp [introduced_eq n, hn, introduces, Shape.map, Shape.toList, introducedBy]
  have hov : overlaps n =
      if bindsVariable condition then redefined (introducedBy [condition, body]) else 0 := by
    simp only [overlaps, opened?, hn]
    split <;> rfl
  rw [passes_eq, hn, hd]
  refine .inScopeIf fun inner => ?_
  rw [show inner ++ introducedBy [condition, body] = inner ++ introduced condition ++ introduced body by simp]
  refine .bind (.visit hcondition) fun condition' _ hc =>
    .returning (.inContext (.visit hbody)) fun body' _ hb => ?_
  refine .rebuilt (by simp [hn, Shape.map, hc.node, hb.node]) rfl rfl
    ((hc.seated .other).append (hb.seated .loop)) rfl ?_
  rw [hov, add_comm]

theorem settles_forLoop {init condition step : Option Node} {body : Node}
    (hn : n.shape = .forLoop init condition step body) (hinit : ∀ c ∈ init, Settles c)
    (hcondition : ∀ c ∈ condition, Settles c) (hstep : ∀ c ∈ step, Settles c) (hbody : Settles body) :
    Settles n := by
  intro contexts before
  have hd : before ++ introduced n = before := by simp [introduced_eq n, hn, introduces, Shape.map]
  have hov : overlaps n = redefined ([] ++ introducedBy init.toList ++ introducedBy condition.toList ++
      introducedBy step.toList ++ introduced body) := by
    simp [overlaps, opened?, hn]
  rw [passes_eq, hn, hd]
  refine .inScope <| .bind (.option hinit) fun init' _ hi => .inContext <|
    .bind (.option hcondition) fun condition' _ hc => .bind (.option hstep) fun step' _ hs =>
      .returning (.visit hbody) fun body' _ hb => ?_
  refine .rebuilt (by simp [hn, Shape.map, hi.option, hc.option, hs.option, hb.node]) rfl rfl
    ((hi.seated .other).append (((hc.append hs).append hb).seated .loop)) rfl ?_
  rw [hov]
  abel

theorem settles_deferred {stmt : Node} (hn : n.shape = .deferred stmt) (h : Settles stmt) :
    Settles n := by
  intro contexts before
  have hd : before ++ introduced n = before ++ (ahead? stmt).toList ++ introduced stmt := by
    simp [introduced_eq n, hn, introduces, Shape.map]
  rw [passes_eq, hn, hd]
  refine .bind (.hoist stmt) fun _ _ hhoist => .returning (.visit h) fun stmt' _ hs => ?_
  refine .unscoped (by simp [opened?, hn]) (by simp [hn, Shape.map, hs.node]) rfl rfl (hs.seated .other) rfl ?_
  rw [hhoist, zero_add]

end BraceLang.Binder
