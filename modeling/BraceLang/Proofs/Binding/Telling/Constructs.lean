import BraceLang.Proofs.Binding.Constructs
import BraceLang.Proofs.Binding.Telling

/-! What the binder reports on constructs that declare nothing and open no scope: if binding the parts of
    a node tells their accounts, so does binding the node (`Settles`). -/

namespace BraceLang

namespace Lexical

section Plain
variable {n : Node}

theorem seats_plain {α : Type} {shape : Shape α} (h : isPlain shape) :
    seats .plain shape = each Seat.plain shape.toList := by
  cases shape with
  | call callee args => simp [seats, Shape.toList, Seat.plain]
  | _ => first | rfl | cases h

theorem introduced_plain (h : isPlain n.shape) : introduced n = introducedBy n.children := by
  have hparts : ∀ parts : Shape (Node × List Introduction), isPlain parts →
      introduces n parts = parts.toList.flatMap (·.2) := by
    intro parts hparts
    cases parts <;> first | rfl | cases hparts
  rw [introduced_eq, hparts _ (by rwa [isPlain_map]), Shape.toList_map, List.flatMap_map]
  rfl

theorem opened?_plain (h : isPlain n.shape) : opened? n = none := by
  obtain ⟨id, range, resolved, shape⟩ := n
  cases shape <;> first | rfl | cases h

theorem isNaming_plain {shape : Shape Node} (h : isPlain shape) : shape.isNaming = false := by
  cases shape <;> first | rfl | cases h

theorem jumpCause?_plain {shape : Shape Node} (h : isPlain shape) : shape.jumpCause? = none := by
  cases shape <;> first | rfl | cases h

end Plain

/-! ### Bare names that are no uses -/

section Standings
variable {n : Node} {standing : Standing}

theorem introduced_selector (h : n.isSelector) : introduced n = [] := by
  obtain ⟨id, range, resolved, shape⟩ := n
  cases shape <;> first | rfl | cases h

theorem account_selector (h : n.isSelector) (hs : standing ≠ .plain) (hlink : n.resolved = none) :
    account standing n = 0 := by
  obtain ⟨id, range, resolved, shape⟩ := n
  obtain rfl : resolved = none := hlink
  rw [account_eq]
  cases shape <;> first
    | (cases h; done)
    | simp [own, noted, complaints, fault?, hs, overlaps, opened?, seats, Shape.toList, Shape.jumpCause?]

/-- A node that is no bare name has the same account wherever it stands, unless it is an attribute that is
    a call. -/
theorem account_standing (hn : Binder.isName n = false)
    (hs : standing = .attribute → ∀ callee args, n.shape ≠ .call callee args) :
    account standing n = account .plain n := by
  have hseats : seats standing n.shape = seats .plain n.shape := by
    cases hshape : n.shape with
    | call callee args =>
      have : standing ≠ .attribute := fun ha => hs ha callee args hshape
      simp [seats, this]
    | _ => rfl
  have hfault : fault? standing n = fault? .plain n := by
    obtain ⟨id, range, resolved, shape⟩ := n
    cases shape <;> first | rfl | cases hn
  rw [account_eq, account_eq .plain, own, own, noted, noted, complaints, complaints, hseats, hfault]

end Standings

end Lexical

namespace Binder
open Lexical

theorem JumpsLinked.selector {contexts : List Context} {n : Node} (h : n.isSelector) :
    JumpsLinked contexts n := by
  refine .of_parts ?_ ?_
  all_goals
    obtain ⟨id, range, resolved, shape⟩ := n
    cases shape <;> first | (cases h; done) | trivial | simp [Shape.regions, Shape.toList]

/-- A name or index that stands for no value is left as it is. -/
theorem Settled.selector {standing : Standing} {contexts : List Context} {n : Node} (h : n.isSelector)
    (hs : standing ≠ .plain) (hlink : n.resolved = none) : Settled standing contexts [n] [n] 0 where
  unlinked := rfl
  jumps := List.forall_mem_singleton.mpr (.selector h)
  told := by rw [accounts_cons, account_selector h hs hlink, accounts_nil, add_zero]

theorem Settled.restand {standing : Standing} {contexts : List Context} {n n' : Node} {told : Account}
    (h : Settled .plain contexts [n] [n'] told) (hn : isName n = false)
    (hs : standing = .attribute → ∀ callee args, n.shape ≠ .call callee args) :
    Settled standing contexts [n] [n'] told where
  unlinked := h.unlinked
  jumps := h.jumps
  told := by
    have hname : isName n' = false := by rw [isName_congr h.node, hn]
    have hcall : standing = .attribute → ∀ callee args, n'.shape ≠ .call callee args := by
      intro ha callee args hshape
      have hsame := congrArg Node.shape h.node
      rw [Node.shape_unlinked, Node.shape_unlinked, hshape] at hsame
      have hno := hs ha
      generalize n.shape = shape at hsame hno
      cases shape <;> first | exact hno _ _ rfl | cases hsame
    rw [h.told, accounts_cons, accounts_cons, account_standing hname hcall]
    rfl

/-! ### Constructs that are walked part by part -/

section Plain
variable {contexts : List Context} {before : List Introduction} {n : Node}

/-- A plain construct of the same sort as before, with its parts bound. -/
def Remade (contexts : List Context) (s s' : Shape Node) (told : Account) : Prop :=
  s'.map Node.unlinked = s.map Node.unlinked ∧ Settled .plain contexts s.toList s'.toList told

theorem Tells.traverse {s : Shape Node} (hs : isPlain s) (h : ∀ c ∈ s.toList, Settles c) :
    Tells contexts before (before ++ introducedBy s.toList) ((s.map part).traverse Binder.visit)
      (Remade contexts s) := by
  cases s
  case bool | int | float | char | str | null | dot | prim =>
    rw [Shape.toList, introducedBy_nil, List.append_nil]
    exact .pure (show Remade _ _ _ _ from ⟨rfl, .nil⟩)
  case group | prefixed | postfixed | spread | fieldInit | exprStmt | pointer | optional =>
    rw [Shape.toList, introducedBy_cons, introducedBy_nil, List.append_nil]
    refine .returning (.visit (h _ List.mem_cons_self)) fun x' _ hx => ⟨?_, hx⟩
    simp [Shape.map, hx.node]
  case template | tuple | array | tupleType =>
    refine .returning (.visits h) fun xs' _ hxs => ⟨?_, hxs⟩
    simpa [Shape.map, Shape.toList] using hxs.unlinked
  case yield =>
    refine .returning (.option fun c hc => h c (by simpa [Shape.toList] using hc)) fun x' _ hx => ⟨?_, hx⟩
    simp [Shape.map, hx.option]
  case binary | assign | cast =>
    rw [Shape.toList, introducedBy_cons, introducedBy_cons, introducedBy_nil, List.append_nil,
      ← List.append_assoc]
    refine .bind (.visit (h _ (by simp [Shape.toList]))) fun x' _ hx =>
      .returning (.visit (h _ (by simp [Shape.toList]))) fun y' _ hy => ⟨?_, hx.cons hy⟩
    simp [Shape.map, hx.node, hy.node]
  case call | new | index | structLiteral =>
    rw [Shape.toList, introducedBy_cons, ← List.append_assoc]
    refine .bind (.visit (h _ List.mem_cons_self)) fun x' _ hx =>
      .returning (.visits fun c hc => h c (List.mem_cons_of_mem _ hc)) fun xs' _ hxs => ⟨?_, hx.cons hxs⟩
    simp [Shape.map, hx.node, hxs.unlinked]
  case signature | funcType =>
    rw [Shape.toList, introducedBy_append, ← List.append_assoc]
    refine .bind (.visits fun c hc => h c (List.mem_append_left _ hc)) fun xs' _ hxs =>
      .returning (.option fun c hc => h c (List.mem_append_right _ (by simpa using hc))) fun x' _ hx =>
      ⟨?_, hxs.append hx⟩
    simp [Shape.map, hxs.unlinked, hx.option]
  case arrayType =>
    rw [Shape.toList, introducedBy_cons, ← List.append_assoc]
    refine .bind (.visit (h _ List.mem_cons_self)) fun x' _ hx =>
      .returning (.option fun c hc => h c (List.mem_cons_of_mem _ (by simpa using hc))) fun size' _ hsize =>
      ⟨?_, hx.cons hsize⟩
    simp [Shape.map, hx.node, hsize.option]
  case ternary c t e =>
    rw [Shape.toList, List.cons_append, introducedBy_cons, introducedBy_append, introducedBy_cons,
      introducedBy_nil, List.append_nil, ← List.append_assoc, ← List.append_assoc]
    refine .bind (.visit (h c (by simp [Shape.toList]))) fun c' _ hc =>
      .bind (.option fun x hx => h x (by simp_all [Shape.toList])) fun t' _ ht =>
      .returning (.visit (h e (by simp [Shape.toList]))) fun e' _ he => ⟨?_, hc.cons (ht.append he)⟩
    simp [Shape.map, hc.node, ht.option, he.node]
  all_goals cases hs

theorem settles_plain (hn : isPlain n.shape) (h : ∀ c ∈ n.children, Settles c) : Settles n := by
  intro contexts before
  rw [passes_eq, introduced_plain hn]
  show Tells _ _ _ (bindWhole n (n.shape.map part)) _
  rw [bindWhole_plain n (by rwa [isPlain_map])]
  refine .returning (.traverse hn h) fun shape told hshape => ?_
  have plain : isPlain shape := by
    rw [← isPlain_map Node.unlinked, hshape.1, isPlain_map]
    exact hn
  exact .unscoped (opened?_plain hn) hshape.1 (isNaming_plain plain) (jumpCause?_plain plain)
    (hshape.2.seated .other) (seats_plain plain) rfl

end Plain

/-! ### Uses and jumps -/

section Links
variable {n : Node}

theorem settles_name {text : String} (hn : n.shape = .name text) : Settles n := by
  intro contexts before
  have hd : before ++ introduced n = before := by simp [introduced_eq n, hn, introduces, Shape.map, Shape.toList]
  have hov : overlaps n = 0 := by simp [overlaps, opened?, hn]
  rw [passes_eq, hn, hd]
  refine .returning (.resolve text n.range) fun resolved told htold => ?_
  refine .of_shape rfl ?_ .nil (by rw [hn]; rfl) ?_
  · simp [JumpLinked, hn]
  · simp [htold, hov, hn, noted, complaints, fault?, Shape.isNaming]

theorem settles_named {head : Ident} {path : List Ident} {args : List Node}
    (hn : n.shape = .named head path args) (hargs : ∀ c ∈ args, Settles c) : Settles n := by
  intro contexts before
  have hd : introduced n = introducedBy args := by
    simp [introduced_eq n, hn, introduces, Shape.map, Shape.toList, List.flatMap_map, introducedBy]
  have hov : overlaps n = 0 := by simp [overlaps, opened?, hn]
  rw [passes_eq, hn, hd]
  refine .bind (.resolve head.text head.range) fun resolved told htold =>
    .returning (.visits hargs) fun args' more hargs' => ?_
  refine .of_shape (by simp [hn, Shape.map, hargs'.unlinked]) trivial (hargs'.seated .other) rfl ?_
  simp [htold, hov, noted, complaints, fault?, Shape.isNaming]

theorem settles_returned {value : Option Node} (hn : n.shape = .returned value)
    (hvalue : ∀ c ∈ value, Settles c) : Settles n := by
  intro contexts before
  have hd : introduced n = introducedBy value.toList := by
    simp [introduced_eq n, hn, introduces, Shape.map, Shape.toList, Option.toList_map, List.flatMap_map,
      introducedBy]
  have hov : overlaps n = 0 := by simp [overlaps, opened?, hn]
  rw [passes_eq, hn, hd]
  refine .bind (.jump _ _ _) fun resolved told htold => .returning (.option hvalue) fun value' more hv => ?_
  refine .of_shape (by simp [hn, Shape.map, hv.option]) htold.1 (hv.seated .other) rfl ?_
  simp [htold.2, hov, noted, complaints, fault?, Shape.isNaming, Shape.jumpCause?]

/-- A jump out of an iteration. -/
theorem settles_jump {cause : BindCause} (hn : n.shape = .broken ∨ n.shape = .continued)
    (hcause : n.shape.jumpCause? = some cause)
    (hbind : bindWhole n (n.shape.map part) = do
      return { n with resolved := ← Binder.jump enclosingLoop? cause n.range }) : Settles n := by
  intro contexts before
  have hd : before ++ introduced n = before := by
    rcases hn with hn | hn <;> simp [introduced_eq n, hn, introduces, Shape.map, Shape.toList]
  have hov : overlaps n = 0 := by rcases hn with hn | hn <;> simp [overlaps, opened?, hn]
  have hseats : seats .plain n.shape = [] := by rcases hn with hn | hn <;> rw [hn] <;> rfl
  rw [passes_eq, hd]
  show Tells _ _ _ (bindWhole n (n.shape.map part)) _
  rw [hbind]
  refine .returning (.jump _ _ _) fun resolved told htold => ?_
  refine .of_shape rfl ?_ .nil hseats ?_
  · rcases hn with hn | hn <;> simp [JumpLinked, hn, htold.1]
  · rcases hn with hn | hn <;> rw [hn] at hcause <;> cases hcause <;>
      simp [htold.2, hov, hn, noted, complaints, fault?, Shape.isNaming, Shape.jumpCause?]

theorem settles_broken (hn : n.shape = .broken) : Settles n :=
  settles_jump (.inl hn) (congrArg _ hn) (congrArg (fun shape => bindWhole n (shape.map part)) hn)

theorem settles_continued (hn : n.shape = .continued) : Settles n :=
  settles_jump (.inr hn) (congrArg _ hn) (congrArg (fun shape => bindWhole n (shape.map part)) hn)

end Links

/-! ### Selections, macros and attributes -/

section Standings
variable {contexts : List Context} {before : List Introduction} {n : Node}

theorem settles_member {target member : Node} {optional : Bool}
    (hn : n.shape = .member target member optional) (htarget : Settles target)
    (hmember : member.isSelector) (hlink : member.resolved = none) : Settles n := by
  intro contexts before
  have hd : introduced n = introduced target := by
    simp [introduced_eq n, hn, introduces, Shape.map, Shape.toList, introduced_selector hmember]
  rw [passes_eq, hn, hd]
  refine .returning (.visit htarget) fun target' told ht => ?_
  have hs : Settled .selector contexts [member] [member] 0 := .selector hmember (by decide) hlink
  exact .unscoped (by simp [opened?, hn]) (by simp [hn, Shape.map, ht.node]) rfl rfl
    ((ht.seated .other).append (hs.seated .other)) rfl (add_zero told).symm

theorem Tells.bareName {standing : Standing} (h : isName n) (hs : standing ≠ .plain)
    (hlink : n.resolved = none) :
    Tells contexts before (before ++ introduced n) (Pure.pure n) fun n' told =>
      Settled standing contexts [n] [n'] told := by
  rw [introduced_selector (isSelector_of_isName h), List.append_nil]
  exact .pure (.selector (isSelector_of_isName h) hs hlink)

theorem Tells.macroTarget (h : Settles n) (hlink : n.resolved = none) :
    Tells contexts before (before ++ introduced n) (visitMacroTarget (part n)) fun n' told =>
      Settled .macroTarget contexts [n] [n'] told := by
  unfold visitMacroTarget
  rw [part_fst]
  by_cases hn : isName n
  · rw [if_pos hn]
    exact .bareName hn (by decide) hlink
  · rw [if_neg hn]
    exact (Tells.visit h).mono fun n' told hn' => hn'.restand (by simpa using hn) fun h => by cases h

theorem settles_macroName {target : Node} (hn : n.shape = .macroName target) (h : Settles target)
    (hlink : target.resolved = none) : Settles n := by
  intro contexts before
  have hd : introduced n = introduced target := by
    simp [introduced_eq n, hn, introduces, Shape.map, Shape.toList]
  rw [passes_eq, hn, hd]
  refine .returning (.macroTarget h hlink) fun target' told ht => ?_
  exact .unscoped (by simp [opened?, hn]) (by simp [hn, Shape.map, ht.node]) rfl rfl (ht.seated .other) rfl rfl

theorem settles_macroCall {target : Node} {args : List Node} (hn : n.shape = .macroCall target args)
    (h : Settles target) (hlink : target.resolved = none) (hargs : ∀ c ∈ args, Settles c) :
    Settles n := by
  intro contexts before
  have hd : before ++ introduced n = before ++ introduced target ++ introducedBy args := by
    simp [introduced_eq n, hn, introduces, Shape.map, Shape.toList, List.flatMap_map, introducedBy]
  rw [passes_eq, hn, hd]
  refine .bind (.macroTarget h hlink) fun target' told ht => .returning (.visits hargs) fun args' more ha => ?_
  exact .unscoped (by simp [opened?, hn]) (by simp [hn, Shape.map, ht.node, ha.unlinked]) rfl rfl
    ((ht.seated .other).append (ha.seated .other)) rfl rfl

/-- The binder on an attribute that is a call: a bare name before the arguments is left as it is. -/
theorem settlesAttribute_call {callee : Node} {args : List Node} (hn : n.shape = .call callee args)
    (h : Settles callee) (hlink : callee.resolved = none) (hargs : ∀ c ∈ args, Settles c) :
    SettlesAttribute n := by
  intro contexts before
  have hd : before ++ introduced n = before ++ introduced callee ++ introducedBy args := by
    simp [introduced_eq n, hn, introduces, Shape.map, Shape.toList, List.flatMap_map, introducedBy]
  have close {callee' : Node} {args' : List Node} {told more : Account}
      (hc : Settled .attributeCallee contexts [callee] [callee'] told)
      (ha : Settled .plain contexts args args' more) :
      Settled .attribute contexts [n] [{ n with shape := .call callee' args' }] (told + more) :=
    .unscoped (by simp [opened?, hn]) (by simp [hn, Shape.map, hc.node, ha.unlinked]) rfl rfl
      ((hc.seated .other).append (ha.seated .other)) rfl rfl
  rw [passes_eq, hn, hd]
  show Tells _ _ _ (if isName callee then _ else _) _
  by_cases hname : isName callee
  · -- The name is not visited, so only the arguments tell anything.
    rw [if_pos hname, introduced_selector (isSelector_of_isName hname), List.append_nil]
    refine .returning (.visits hargs) fun args' more ha => ?_
    rw [← zero_add more]
    exact close (.selector (isSelector_of_isName hname) (by decide) hlink) ha
  · rw [if_neg hname]
    have traversed : Tells contexts before (before ++ introduced callee ++ introducedBy args)
        ((Shape.call (part callee) (args.map part)).traverse visit) fun shape told =>
          Settled .attribute contexts [n] [{ n with shape }] told := by
      refine .bind (.visit h) fun callee' told hc => .returning (.visits hargs) fun args' more ha => ?_
      exact close (hc.restand (by simpa using hname) fun h => by cases h) ha
    exact .returning traversed fun shape told hshape => hshape

/-- An attribute is bound as any node is, but for its name. -/
theorem settlesAttribute (h : Settles n) (hlink : n.resolved = none)
    (hcall : ∀ callee args, n.shape ≠ .call callee args) : SettlesAttribute n := by
  intro contexts before
  rw [passes_eq]
  show Tells _ _ _ (bindAttribute n (n.shape.map part)) _
  by_cases hname : isName n
  · rw [bindAttribute_name hname]
    exact .bareName hname (by decide) hlink
  · rw [bindAttribute_other hname hcall]
    have whole := h contexts before
    rw [passes_eq] at whole
    exact whole.mono fun n' told hn' => hn'.restand (by simpa using hname) fun _ => hcall

end Standings

end Binder

end BraceLang
