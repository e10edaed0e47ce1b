import BraceLang.Proofs.Binding.Relinks

/-! Binding changes links only, construct by construct: if the parts of a node are bound without other
    changes wherever they stand, so is the node (`Rebinds`). -/

namespace BraceLang

namespace Binder
open Lexical

/-- The node is bound as one that stands as `plain`, given the ways to bind its parts. -/
def Rebinds (n : Node) : Prop := Results (bindWhole n (n.shape.map part)) (Relinks .plain n)

section Constructs
variable {n : Node}

theorem relinks_plain (plain : isPlain n.shape = true) (h : ∀ c ∈ n.children, Bindable c) : Rebinds n := by
  rw [Rebinds, bindWhole_plain n (by rwa [isPlain_map]), Shape.traverse_map, Shape.traverse_eq_beside]
  refine .bind (.map ((Results.traverse plain fun c hc => (h c hc).whole).mono fun pairs hpairs => ?_))
    fun shape hshape => .pure hshape
  obtain ⟨before, parts⟩ := hpairs
  refine .mk pairs before.symm rfl rfl rfl (.inl rfl) ?_
  have seated : seats .plain pairs = each Seat.plain pairs.toList := by
    have same : isPlain pairs = true := by
      rw [← before, isPlain_map] at plain
      exact plain
    cases pairs <;> first | rfl | cases same
  rw [seated]
  exact relinksSeats_each.mpr parts

/-! ### Uses and jumps -/

theorem relinks_name {text : String} (hn : n.shape = .name text) : Rebinds n := by
  rw [Rebinds, hn]
  refine .bind (.any _) fun _ _ => .pure ?_
  exact .mk (.name text) hn hn rfl rfl (.inr (by rw [hn]; rfl)) (List.forall_mem_nil _)

theorem relinks_named {head : Ident} {path : List Ident} {args : List Node} (hn : n.shape = .named head path args)
    (hargs : ∀ c ∈ args, Bindable c) : Rebinds n := by
  rw [Rebinds, hn]
  refine .bind (.any _) fun _ _ => .bind (.visits hargs) fun _ hargs => .pure ?_
  obtain ⟨args, rfl, rfl, hargs⟩ := hargs
  refine .of_parts (.named head path args) hn (.inr (by rw [hn]; rfl)) ?_
  exact relinksSeats_each.mpr hargs

theorem relinks_returned {value : Option Node} (hn : n.shape = .returned value)
    (hvalue : ∀ c ∈ value.toList, Bindable c) : Rebinds n := by
  rw [Rebinds, hn]
  refine .bind (.any _) fun _ _ => .bind (.option hvalue) fun _ hvalue => .pure ?_
  obtain ⟨value, rfl, rfl, hvalue⟩ := hvalue
  refine .of_parts (.returned value) hn (.inr (by rw [hn]; rfl)) ?_
  exact relinksSeats_each.mpr hvalue

theorem relinks_broken (hn : n.shape = .broken) : Rebinds n := by
  rw [Rebinds, hn]
  refine .bind (.any _) fun _ _ => .pure ?_
  exact .mk .broken hn hn rfl rfl (.inr (by rw [hn]; rfl)) (List.forall_mem_nil _)

theorem relinks_continued (hn : n.shape = .continued) : Rebinds n := by
  rw [Rebinds, hn]
  refine .bind (.any _) fun _ _ => .pure ?_
  exact .mk .continued hn hn rfl rfl (.inr (by rw [hn]; rfl)) (List.forall_mem_nil _)

/-! ### Members and macros -/

theorem relinks_member {target member : Node} {optional : Bool} (hn : n.shape = .member target member optional)
    (htarget : Bindable target) : Rebinds n := by
  rw [Rebinds, hn]
  refine .bind (.visit htarget) fun _ htarget => .pure ?_
  refine .of_parts (.member (_, _) (member, member) optional) hn (.inl rfl) ?_
  simp [seats, htarget, Relinks.refl]

theorem relinks_macroName {target : Node} (hn : n.shape = .macroName target) (htarget : Bindable target) :
    Rebinds n := by
  rw [Rebinds, hn]
  refine .bind (.macroTarget htarget) fun _ htarget => .pure ?_
  refine .of_parts (.macroName (_, _)) hn (.inl rfl) ?_
  simp [seats, htarget]

theorem relinks_macroCall {target : Node} {args : List Node} (hn : n.shape = .macroCall target args)
    (htarget : Bindable target) (hargs : ∀ c ∈ args, Bindable c) : Rebinds n := by
  rw [Rebinds, hn]
  refine .bind (.macroTarget htarget) fun _ htarget => .bind (.visits hargs) fun _ hargs => .pure ?_
  obtain ⟨args, rfl, rfl, hargs⟩ := hargs
  refine .of_parts (.macroCall (_, _) args) hn (.inl rfl) ?_
  simp [seats, htarget, hargs]

/-! ### Declarations -/

theorem relinks_var {attrs : List Node} {modifiers : Modifiers} {isConst : Bool} {pattern : Pattern}
    {type init : Option Node} (hn : n.shape = .var attrs modifiers isConst pattern type init)
    (hattrs : ∀ c ∈ attrs, Bindable c) (htype : ∀ c ∈ type.toList, Bindable c)
    (hinit : ∀ c ∈ init.toList, Bindable c) : Rebinds n := by
  rw [Rebinds, hn]
  refine .bind (.attributes hattrs) fun _ hattrs => .bind (.option htype) fun _ htype =>
    .bind (.option hinit) fun _ hinit => .bind (.any _) fun _ _ => .pure ?_
  obtain ⟨attrs, rfl, rfl, hattrs⟩ := hattrs
  obtain ⟨type, rfl, rfl, htype⟩ := htype
  obtain ⟨init, rfl, rfl, hinit⟩ := hinit
  refine .of_parts (.var attrs modifiers isConst pattern type init) hn (.inl rfl) ?_
  simp [seats, hattrs, htype, hinit]

theorem relinks_func {attrs generics : List Node} {modifiers : Modifiers} {isAsync : Bool} {name : Ident}
    {operator : Option Kind} {signature : Node} {body : Option Node}
    (hn : n.shape = .func attrs modifiers isAsync name operator generics signature body)
    (hattrs : ∀ c ∈ attrs, Bindable c) (hgenerics : ∀ c ∈ generics, Bindable c)
    (hsignature : Bindable signature) (hbody : ∀ c ∈ body.toList, Bindable c) : Rebinds n := by
  rw [Rebinds, hn]
  refine .bind (.attributes hattrs) fun _ hattrs => .inScope <| .bind (.visits hgenerics) fun _ hgenerics =>
    .bind (.visit hsignature) fun _ hsignature => .bind (.inContext (.option hbody)) fun _ hbody => .pure ?_
  obtain ⟨attrs, rfl, rfl, hattrs⟩ := hattrs
  obtain ⟨generics, rfl, rfl, hgenerics⟩ := hgenerics
  obtain ⟨body, rfl, rfl, hbody⟩ := hbody
  refine .of_parts (.func attrs modifiers isAsync name operator generics (_, _) body) hn (.inl rfl) ?_
  simp [seats, hattrs, hgenerics, hsignature, hbody]

theorem relinks_closure {isAsync : Bool} {signature body : Node} (hn : n.shape = .closure isAsync signature body)
    (hsignature : Bindable signature) (hbody : Bindable body) : Rebinds n := by
  rw [Rebinds, hn]
  refine .inScope <| .bind (.visit hsignature) fun _ hsignature =>
    .bind (.inContext (.visit hbody)) fun _ hbody => .pure ?_
  refine .of_parts (.closure isAsync (_, _) (_, _)) hn (.inl rfl) ?_
  simp [seats, hsignature, hbody]

theorem relinks_param {name : Ident} {type default : Option Node} (hn : n.shape = .param name type default)
    (htype : ∀ c ∈ type.toList, Bindable c) (hdefault : ∀ c ∈ default.toList, Bindable c) : Rebinds n := by
  rw [Rebinds, hn]
  refine .bind (.option htype) fun _ htype => .bind (.option hdefault) fun _ hdefault =>
    .bind (.any _) fun _ _ => .pure ?_
  obtain ⟨type, rfl, rfl, htype⟩ := htype
  obtain ⟨default, rfl, rfl, hdefault⟩ := hdefault
  refine .of_parts (.param name type default) hn (.inl rfl) ?_
  simp [seats, Shape.toList, htype, hdefault]

theorem relinks_generic {name : Ident} {constraints : List Node} (hn : n.shape = .generic name constraints)
    (hconstraints : ∀ c ∈ constraints, Bindable c) : Rebinds n := by
  rw [Rebinds, hn]
  refine .bind (.visits hconstraints) fun _ hconstraints => .bind (.any _) fun _ _ => .pure ?_
  obtain ⟨constraints, rfl, rfl, hconstraints⟩ := hconstraints
  refine .of_parts (.generic name constraints) hn (.inl rfl) ?_
  exact relinksSeats_each.mpr hconstraints

theorem relinks_struct {attrs generics members : List Node} {modifiers : Modifiers} {name : Ident}
    (hn : n.shape = .struct attrs modifiers name generics members) (hattrs : ∀ c ∈ attrs, Bindable c)
    (hgenerics : ∀ c ∈ generics, Bindable c) (hmembers : ∀ c ∈ members, Bindable c) : Rebinds n := by
  rw [Rebinds, hn]
  refine .bind (.attributes hattrs) fun _ hattrs => .inScope <| .bind (.visits hgenerics) fun _ hgenerics =>
    .bind (.visitScope hmembers) fun _ hmembers => .pure ?_
  obtain ⟨attrs, rfl, rfl, hattrs⟩ := hattrs
  obtain ⟨generics, rfl, rfl, hgenerics⟩ := hgenerics
  obtain ⟨members, rfl, rfl, hmembers⟩ := hmembers
  refine .of_parts (.struct attrs modifiers name generics members) hn (.inl rfl) ?_
  simp [seats, hattrs, hgenerics, hmembers]

theorem relinks_field {attrs : List Node} {isPrivate : Bool} {name : Ident} {type : Node} {default : Option Node}
    (hn : n.shape = .field attrs isPrivate name type default) (hattrs : ∀ c ∈ attrs, Bindable c)
    (htype : Bindable type) (hdefault : ∀ c ∈ default.toList, Bindable c) : Rebinds n := by
  rw [Rebinds, hn]
  refine .bind (.attributes hattrs) fun _ hattrs => .bind (.visit htype) fun _ htype =>
    .bind (.option hdefault) fun _ hdefault => .bind (.any _) fun _ _ => .pure ?_
  obtain ⟨attrs, rfl, rfl, hattrs⟩ := hattrs
  obtain ⟨default, rfl, rfl, hdefault⟩ := hdefault
  refine .of_parts (.field attrs isPrivate name (_, _) default) hn (.inl rfl) ?_
  simp [seats, hattrs, htype, hdefault]

theorem relinks_enum {attrs options : List Node} {modifiers : Modifiers} {name : Ident} {base : Option Node}
    (hn : n.shape = .enum attrs modifiers name base options) (hattrs : ∀ c ∈ attrs, Bindable c)
    (hbase : ∀ c ∈ base.toList, Bindable c) (hoptions : ∀ c ∈ options, Bindable c) : Rebinds n := by
  rw [Rebinds, hn]
  refine .bind (.attributes hattrs) fun _ hattrs => .bind (.option hbase) fun _ hbase => .inScope <|
    .bind (.visits hoptions) fun _ hoptions => .pure ?_
  obtain ⟨attrs, rfl, rfl, hattrs⟩ := hattrs
  obtain ⟨base, rfl, rfl, hbase⟩ := hbase
  obtain ⟨options, rfl, rfl, hoptions⟩ := hoptions
  refine .of_parts (.enum attrs modifiers name base options) hn (.inl rfl) ?_
  simp [seats, hattrs, hbase, hoptions]

theorem relinks_enumOption {attrs : List Node} {name : Ident} {value : Option Node}
    (hn : n.shape = .enumOption attrs name value) (hattrs : ∀ c ∈ attrs, Bindable c)
    (hvalue : ∀ c ∈ value.toList, Bindable c) : Rebinds n := by
  rw [Rebinds, hn]
  refine .bind (.attributes hattrs) fun _ hattrs => .bind (.option hvalue) fun _ hvalue =>
    .bind (.any _) fun _ _ => .pure ?_
  obtain ⟨attrs, rfl, rfl, hattrs⟩ := hattrs
  obtain ⟨value, rfl, rfl, hvalue⟩ := hvalue
  refine .of_parts (.enumOption attrs name value) hn (.inl rfl) ?_
  simp [seats, hattrs, hvalue]

theorem relinks_typeAlias {attrs generics : List Node} {modifiers : Modifiers} {name : Ident} {type : Node}
    (hn : n.shape = .typeAlias attrs modifiers name generics type) (hattrs : ∀ c ∈ attrs, Bindable c)
    (hgenerics : ∀ c ∈ generics, Bindable c) (htype : Bindable type) : Rebinds n := by
  rw [Rebinds, hn]
  refine .bind (.attributes hattrs) fun _ hattrs => .inScope <| .bind (.visits hgenerics) fun _ hgenerics =>
    .bind (.visit htype) fun _ htype => .pure ?_
  obtain ⟨attrs, rfl, rfl, hattrs⟩ := hattrs
  obtain ⟨generics, rfl, rfl, hgenerics⟩ := hgenerics
  refine .of_parts (.typeAlias attrs modifiers name generics (_, _)) hn (.inl rfl) ?_
  simp [seats, hattrs, hgenerics, htype]

theorem relinks_union {attrs generics members : List Node} {modifiers : Modifiers} {name : Ident}
    (hn : n.shape = .union attrs modifiers name generics members) (hattrs : ∀ c ∈ attrs, Bindable c)
    (hgenerics : ∀ c ∈ generics, Bindable c) (hmembers : ∀ c ∈ members, Bindable c) : Rebinds n := by
  rw [Rebinds, hn]
  refine .bind (.attributes hattrs) fun _ hattrs => .inScope <| .bind (.visits hgenerics) fun _ hgenerics =>
    .bind (.visits hmembers) fun _ hmembers => .pure ?_
  obtain ⟨attrs, rfl, rfl, hattrs⟩ := hattrs
  obtain ⟨generics, rfl, rfl, hgenerics⟩ := hgenerics
  obtain ⟨members, rfl, rfl, hmembers⟩ := hmembers
  refine .of_parts (.union attrs modifiers name generics members) hn (.inl rfl) ?_
  simp [seats, hattrs, hgenerics, hmembers]

/-! ### Statements -/

theorem relinks_block {statements : List Node} (hn : n.shape = .block statements)
    (hstatements : ∀ c ∈ statements, Bindable c) : Rebinds n := by
  rw [Rebinds, hn]
  refine .inScope <| .bind (.visitScope hstatements) fun _ hstatements => .pure ?_
  obtain ⟨statements, rfl, rfl, hstatements⟩ := hstatements
  refine .of_parts (.block statements) hn (.inl rfl) ?_
  exact relinksSeats_each.mpr hstatements

theorem relinks_ifElse {condition thenBranch : Node} {elseBranch : Option Node}
    (hn : n.shape = .ifElse condition thenBranch elseBranch) (hcondition : Bindable condition)
    (hthen : Bindable thenBranch) (helse : ∀ c ∈ elseBranch.toList, Bindable c) : Rebinds n := by
  rw [Rebinds, hn]
  refine .inScopeIf <| .bind (.visit hcondition) fun _ hcondition => .bind (.visit hthen) fun _ hthen =>
    .bind (.option helse) fun _ helse => .pure ?_
  obtain ⟨elseBranch, rfl, rfl, helse⟩ := helse
  refine .of_parts (.ifElse (_, _) (_, _) elseBranch) hn (.inl rfl) ?_
  simp [seats, Shape.toList, hcondition, hthen, helse]

theorem relinks_whileLoop {condition body : Node} (hn : n.shape = .whileLoop condition body)
    (hcondition : Bindable condition) (hbody : Bindable body) : Rebinds n := by
  rw [Rebinds, hn]
  refine .inScopeIf <| .bind (.visit hcondition) fun _ hcondition =>
    .bind (.inContext (.visit hbody)) fun _ hbody => .pure ?_
  refine .of_parts (.whileLoop (_, _) (_, _)) hn (.inl rfl) ?_
  simp [seats, hcondition, hbody]

theorem relinks_forLoop {init condition step : Option Node} {body : Node}
    (hn : n.shape = .forLoop init condition step body) (hinit : ∀ c ∈ init.toList, Bindable c)
    (hcondition : ∀ c ∈ condition.toList, Bindable c) (hstep : ∀ c ∈ step.toList, Bindable c)
    (hbody : Bindable body) : Rebinds n := by
  rw [Rebinds, hn]
  refine .inScope <| .bind (.option hinit) fun _ hinit => .inContext <|
    .bind (.option hcondition) fun _ hcondition => .bind (.option hstep) fun _ hstep =>
    .bind (.visit hbody) fun _ hbody => .pure ?_
  obtain ⟨init, rfl, rfl, hinit⟩ := hinit
  obtain ⟨condition, rfl, rfl, hcondition⟩ := hcondition
  obtain ⟨step, rfl, rfl, hstep⟩ := hstep
  refine .of_parts (.forLoop init condition step (_, _)) hn (.inl rfl) ?_
  simp [seats, hinit, hcondition, hstep, hbody]

theorem relinks_deferred {stmt : Node} (hn : n.shape = .deferred stmt) (hstmt : Bindable stmt) : Rebinds n := by
  rw [Rebinds, hn]
  refine .bind (.any _) fun _ _ => .bind (.visit hstmt) fun _ hstmt => .pure ?_
  refine .of_parts (.deferred (_, _)) hn (.inl rfl) ?_
  simp [seats, Shape.toList, hstmt]

theorem rebinds (h : ∀ c ∈ n.children, Bindable c) : Rebinds n := by
  by_cases plain : isPlain n.shape = true
  · exact relinks_plain plain h
  rw [Node.children] at h
  generalize hn : n.shape = shape at h plain
  cases shape <;> simp only [Shape.toList, List.forall_mem_append, List.forall_mem_cons] at h
  case name => exact relinks_name hn
  case named => exact relinks_named hn h
  case returned => exact relinks_returned hn h
  case broken => exact relinks_broken hn
  case continued => exact relinks_continued hn
  case member => exact relinks_member hn h.1
  case macroName => exact relinks_macroName hn h.1
  case macroCall => exact relinks_macroCall hn h.1 h.2
  case var => exact relinks_var hn h.1.1 h.1.2 h.2
  case func => exact relinks_func hn h.1.1 h.1.2 h.2.1 h.2.2
  case closure => exact relinks_closure hn h.1 h.2.1
  case param => exact relinks_param hn h.1 h.2
  case generic => exact relinks_generic hn h
  case struct => exact relinks_struct hn h.1.1 h.1.2 h.2
  case field => exact relinks_field hn h.1 h.2.1 h.2.2
  case enum => exact relinks_enum hn h.1.1 h.1.2 h.2
  case enumOption => exact relinks_enumOption hn h.1 h.2
  case typeAlias => exact relinks_typeAlias hn h.1.1 h.1.2 h.2.1
  case union => exact relinks_union hn h.1.1 h.1.2 h.2
  case block => exact relinks_block hn h
  case ifElse => exact relinks_ifElse hn h.1 h.2.1 h.2.2
  case whileLoop => exact relinks_whileLoop hn h.1 h.2.1
  case forLoop => exact relinks_forLoop hn h.1.1.1 h.1.1.2 h.1.2 h.2.1
  case deferred => exact relinks_deferred hn h.1
  all_goals exact absurd rfl plain

/-! ### Attributes -/

/-- An attribute that is a call of something other than a bare name is bound as any call. -/
theorem relinks_attributeCall {n' callee : Node} {args : List Node} (hn : n.shape = .call callee args)
    (hname : isName callee = false) (h : Relinks .plain n n') : Relinks .attribute n n' := by
  obtain ⟨pairs, before, after, id, range, link, parts⟩ := h
  refine .mk pairs before after id range (.inl ?_) ?_
  · rw [hn] at link
    exact link.resolve_right fun links => by cases links
  rw [hn] at before
  cases pairs <;> cases before
  obtain ⟨hcallee, hargs⟩ := List.forall_mem_cons.mp parts
  refine List.forall_mem_cons.mpr ⟨?_, hargs⟩
  exact Relinks.restand hcallee hname Standing.noConfusion Standing.noConfusion

theorem relinks_asAttribute (whole : Rebinds n) (h : ∀ c ∈ n.children, Bindable c) :
    Results (bindAttribute n (n.shape.map part)) (Relinks .attribute n) := by
  by_cases hname : isName n = true
  · rw [bindAttribute_name hname]
    exact .pure (.refl _ n)
  by_cases hcall : ∃ callee args, n.shape = .call callee args
  · obtain ⟨callee, args, hn⟩ := hcall
    rw [Node.children, hn] at h
    obtain ⟨-, hargs⟩ := List.forall_mem_cons.mp h
    rw [Rebinds] at whole
    rw [hn] at whole ⊢
    show Results (if isName callee then _ else _) _
    split
    · refine .bind (.visits hargs) fun _ hargs => .pure ?_
      obtain ⟨args, rfl, rfl, hargs⟩ := hargs
      refine .of_parts (.call (callee, callee) args) hn (.inl rfl) ?_
      simp [seats, hargs, Relinks.refl]
    · rename_i hname
      exact whole.mono fun n' hn' => relinks_attributeCall hn (by simpa using hname) hn'
  · rw [bindAttribute_other hname fun callee args hn => hcall ⟨callee, args, hn⟩]
    exact whole.mono fun n' hn' =>
      hn'.restand (by simpa using hname) (by decide) fun _ callee args hn => hcall ⟨callee, args, hn⟩

end Constructs

theorem bindable (n : Node) : Bindable n := by
  induction n using Node.induct with
  | step n ih =>
    have whole := rebinds ih
    have asAttribute := relinks_asAttribute whole ih
    constructor
    · rw [passes_eq]
      exact whole
    · rw [passes_eq]
      exact asAttribute

theorem bind_relinks (p : Program) (log : Log) : RelinksAll .plain p.items (bind p log).1.items :=
  Results.inScope (.visitScope fun n _ => bindable n) ⟨log, .empty, [], 0, 0⟩

end Binder

end BraceLang
