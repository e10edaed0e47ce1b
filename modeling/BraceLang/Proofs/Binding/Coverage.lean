import BraceLang.Proofs.Binding.Concord
import BraceLang.Proofs.Diagnostic.Closest

/-! The binder against the places of a tree. A step covers the places that it goes through (`Covers`): it
    opens and closes one scope for each of them that has one, reports the names that are unknown at them
    in their order, and is in the end where it began. Every step of the binder has a rule, and what is
    covered by steps one after another is put together. -/

namespace BraceLang

/-- Whether a construct is bound in a scope of its own. A choice or a loop with a condition has one if a
    variable is declared in the condition. -/
def Shape.opensScope (shape : Shape Node) : Bool :=
  match shape with
  | .func .. | .closure .. | .struct .. | .enum .. | .typeAlias .. | .union .. | .block _ | .forLoop .. => true
  | .ifElse condition .. | .whileLoop condition _ => Lexical.bindsVariable condition
  | _ => false

def Node.opensScope (n : Node) : Bool := n.shape.opensScope

/-- Whether a diagnostic is about a name that nothing in scope declares. -/
def Diagnostic.isUndefinedName (d : Diagnostic) : Bool := d.code == some Code.undefinedName.text

theorem BindCause.code_diagnostic (cause : BindCause) (range : Range) :
    (cause.diagnostic range).code = some cause.code.text := by
  cases cause with
  | undefined name suggestion => cases suggestion <;> rfl
  | redefinition name first => cases first <;> rfl
  | breakOutsideLoop => rfl
  | continueOutsideLoop => rfl
  | returnOutsideFunction => rfl

theorem BindCause.isUndefinedName_diagnostic (cause : BindCause) (range : Range) :
    (cause.diagnostic range).isUndefinedName = (cause.code == .undefinedName) := by
  rw [Diagnostic.isUndefinedName, code_diagnostic]
  cases cause.code <;> decide

namespace Lexical

/-! ### Unknown names -/

/-- The names in scope, inner scopes first and each in the order of declaration. -/
def Scopes.visible (scopes : Scopes) : List String := scopes.flatten.map (·.name)

theorem Shows.question? {stack : ScopeStack} {scopes : Scopes} (h : Shows stack scopes) (name : String) :
    Suggestion.question? name stack.visibleNames = Suggestion.question? name scopes.visible := by
  have names : scopes.flatMap namesOf = (scopes.map fun scope => scope.map (·.name)).flatMap List.eraseDups := by
    rw [List.flatMap_map]
    rfl
  rw [h.visibleNames, Suggestion.question?, names, Suggestion.closest?_eraseDups, ← List.map_flatten]
  rfl

/-- What is reported about a use of a name that no scope declares. -/
def Scopes.unknown? (scopes : Scopes) (name : String) (range : Range) : Option Diagnostic :=
  match scopes.findSome? (first? · name) with
  | some _ => none
  | none => some ((BindCause.undefined name (Suggestion.question? name scopes.visible)).diagnostic range)

namespace Place

/-- What is reported about a place that uses an unknown name. -/
def unknown? (p : Place) : Option Diagnostic :=
  match p.node.shape with
  | .name text => if p.standing = .plain then p.scopes.unknown? text p.node.range else none
  | .named head _ _ => p.scopes.unknown? head.text head.range
  | _ => none

theorem unknown?_eq_none {p : Place} {shape : Shape Node} (hp : p.node.shape = shape)
    (naming : shape.isNaming = false) : p.unknown? = none := by
  unfold unknown?
  rw [hp]
  cases shape <;> first | rfl | cases naming

/-- A place without a scope of its own and without an unknown name. -/
structure Silent (p : Place) : Prop where
  scope : p.node.opensScope = false
  name : p.unknown? = none

theorem Silent.of_shape {p : Place} {shape : Shape Node} (hp : p.node.shape = shape)
    (scope : shape.opensScope = false) (naming : shape.isNaming = false) : p.Silent :=
  ⟨(congrArg Shape.opensScope hp).trans scope, unknown?_eq_none hp naming⟩

end Place

end Lexical

namespace Binder
open Lexical

variable {α β : Type}

/-! ### Steps -/

/-- From `s` to `t`, the binder went through these places. -/
structure Passed (scopes : Scopes) (ps : List Place) (s t : State) : Prop where
  contexts : t.contexts = s.contexts
  depth : t.scopes.depth = s.scopes.depth
  opened : t.scopes.opened = s.scopes.opened + ps.countP (·.node.opensScope)
  closed : t.scopes.closed = s.scopes.closed + ps.countP (·.node.opensScope)
  frames : s.scopes.framesAllocated = s.scopes.maxDepth → t.scopes.framesAllocated = t.scopes.maxDepth
  log : ∃ new, t.log = s.log.append new ∧
    (Shows s.scopes scopes → new.filter (·.isUndefinedName) = ps.filterMap Place.unknown?)

namespace Passed
variable {before between : Scopes} {ps qs : List Place} {s t u : State}

theorem nothing (s : State) : Passed before [] s s :=
  ⟨rfl, rfl, rfl, rfl, id, [], rfl, fun _ => rfl⟩

theorem trans (h : Passed before ps s t) (shows : Shows s.scopes before → Shows t.scopes between)
    (h' : Passed between qs t u) : Passed before (ps ++ qs) s u where
  contexts := h'.contexts.trans h.contexts
  depth := h'.depth.trans h.depth
  opened := by rw [h'.opened, h.opened, List.countP_append, Nat.add_assoc]
  closed := by rw [h'.closed, h.closed, List.countP_append, Nat.add_assoc]
  frames := h'.frames ∘ h.frames
  log := by
    obtain ⟨first, hfirst, hnames⟩ := h.log
    obtain ⟨second, hsecond, hnames'⟩ := h'.log
    refine ⟨first ++ second, ?_, fun hs => ?_⟩
    · rw [hsecond, hfirst, Log.append_append]
    · rw [List.filter_append, List.filterMap_append, hnames hs, hnames' (shows hs)]

/-- A report that is about no unknown name. -/
theorem report (cause : BindCause) (range : Range) (s : State) (h : cause.code ≠ .undefinedName) :
    Passed before [] s (Binder.report ⟨cause, some range⟩ s).2 := by
  refine ⟨rfl, rfl, rfl, rfl, id, [cause.diagnostic range], rfl, fun _ => ?_⟩
  rw [List.filter_singleton, BindCause.isUndefinedName_diagnostic, beq_eq_false_iff_ne.mpr h]
  rfl

/-- A scope of its own is opened and closed again. -/
theorem inScope {p : Place} (opens : p.node.opensScope = true) (name : p.unknown? = none)
    (h : Passed ([] :: before) ps { s with scopes := s.scopes.push } t) :
    Passed before (p :: ps) s { t with scopes := t.scopes.pop } where
  contexts := h.contexts
  depth := by
    show t.scopes.depth - 1 = s.scopes.depth
    rw [h.depth]
    rfl
  opened := by
    show t.scopes.opened = _
    rw [h.opened, List.countP_cons, if_pos opens]
    exact Nat.add_right_comm _ 1 _
  closed := by
    show t.scopes.closed + 1 = _
    rw [h.closed, List.countP_cons, if_pos opens]
    rfl
  frames := fun hs => h.frames <| by
    show s.scopes.push.framesAllocated = max s.scopes.maxDepth (s.scopes.depth + 1)
    rw [ScopeStack.framesAllocated_push, hs]
    rfl
  log := by
    obtain ⟨new, hlog, hnames⟩ := h.log
    refine ⟨new, hlog, fun hs => ?_⟩
    rw [List.filterMap_cons, name]
    exact hnames hs.push

end Passed

/-- The step goes through these places, from scopes `before` to scopes `after`. -/
structure Covers (m : BindM α) (before after : Scopes) (ps : List Place) : Prop where
  passed : ∀ s, Passed before ps s (m s).2
  walks : Walks m before after fun _ => True

namespace Covers
variable {m : BindM α} {before between after : Scopes} {ps qs : List Place}

theorem pure (a : α) : Covers (pure a) before before [] := ⟨.nothing, .pure trivial⟩

theorem bind {f : α → BindM β} (hm : Covers m before between ps) (hf : ∀ a, Covers (f a) between after qs) :
    Covers (m >>= f) before after (ps ++ qs) where
  passed s := (hm.passed s).trans (fun hs => (hm.walks s hs).2) ((hf (m s).1).passed _)
  walks := hm.walks.bind fun a _ => (hf a).walks

/-- A step behind which no place is left. -/
theorem last {f : α → BindM β} (hm : Covers m before between ps) (hf : ∀ a, Covers (f a) between after []) :
    Covers (m >>= f) before after ps :=
  List.append_nil ps ▸ hm.bind hf

theorem inScope {scope : List Declaration} {p : Place} (opens : p.node.opensScope = true)
    (name : p.unknown? = none) (h : Covers m ([] :: before) (scope :: before) ps) :
    Covers (Binder.inScope m) before before (p :: ps) where
  passed s := (h.passed { s with scopes := s.scopes.push }).inScope opens name
  walks := h.walks.inScope

theorem inContext {context : Context} (h : Covers m before after ps) :
    Covers (Binder.inContext context m) before after ps where
  passed s := by
    have inside := h.passed { s with contexts := context :: s.contexts }
    exact ⟨congrArg List.tail inside.contexts, inside.depth, inside.opened, inside.closed, inside.frames,
      inside.log⟩
  walks := h.walks.inContext

theorem declare (name : Ident) (decl : NodeId) :
    Covers (Binder.declare name decl) before (before.extend [⟨name.text, decl⟩]) [] where
  passed s := by
    rw [Binder.declare, get_bind]
    cases hdefine : s.scopes.define name.text ⟨decl, some name.range⟩ with
    | ok scopes =>
      obtain ⟨opened, closed, maxDepth⟩ := ScopeStack.define_history hdefine
      obtain ⟨depth, frames⟩ := ScopeStack.define_counts hdefine
      exact ⟨rfl, depth, opened, closed, fun h => frames.trans (h.trans maxDepth.symm), [], rfl, fun _ => rfl⟩
    | error first => exact .report _ _ s Code.noConfusion
  walks := .declare name decl

theorem declareAll (names : List Ident) (decl : NodeId) :
    Covers (names.forM (Binder.declare · decl)) before
      (before.extend (names.map fun name => ⟨name.text, decl⟩)) [] := by
  induction names generalizing before with
  | nil =>
    rw [List.map_nil, Scopes.extend_nil]
    exact .pure ()
  | cons name names ih =>
    have h : Covers ((name :: names).forM (Binder.declare · decl)) before _ [] :=
      (declare name decl).bind fun _ => ih
    rw [Scopes.extend_extend] at h
    exact h

theorem hoist (n : Node) : Covers (Binder.hoist n) before (before.extend (hoisted? n).toList) [] where
  passed := by
    obtain ⟨id, range, resolved, shape⟩ := n
    cases shape
    case func | struct | enum | union | typeAlias => exact (declare _ _).passed
    all_goals exact .nothing
  walks := .hoist n

theorem resolve {name : String} {range : Range} {p : Place} (scope : p.node.opensScope = false)
    (unknown : p.unknown? = before.unknown? name range) :
    Covers (Binder.resolve name range) before before [p] where
  passed s := by
    have looked (hs : Shows s.scopes before) := hs.lookup? name
    have none_opened : [p].countP (·.node.opensScope) = 0 := by simp [scope]
    rw [Binder.resolve, get_bind]
    cases hlookup : s.scopes.lookup? name with
    | some b =>
      refine ⟨rfl, rfl, by rw [none_opened]; rfl, by rw [none_opened]; rfl, id, [], rfl, fun hs => ?_⟩
      have found := looked hs
      rw [hlookup] at found
      rw [List.filterMap_cons, unknown, Scopes.unknown?, ← found]
      rfl
    | none =>
      refine ⟨rfl, rfl, by rw [none_opened]; rfl, by rw [none_opened]; rfl, id, [_], rfl, fun hs => ?_⟩
      have found := looked hs
      rw [hlookup] at found
      rw [List.filterMap_cons, unknown, Scopes.unknown?, ← found, ← hs.question? name]
      exact List.filter_cons_of_pos (BindCause.isUndefinedName_diagnostic _ _)
  walks := (Walks.resolve name range).mono fun _ _ => trivial

theorem jump (target : List Context → Option NodeId) {cause : BindCause} (range : Range)
    (h : cause.code ≠ .undefinedName) : Covers (Binder.jump target cause range) before before [] where
  passed s := by
    rw [Binder.jump, get_bind]
    cases target s.contexts with
    | some id => exact .nothing s
    | none => exact .report cause range s h
  walks := .jump target cause range

/-! ### Lists of places -/

theorem congr (h : Covers m before after ps)
    (scopes : qs.countP (·.node.opensScope) = ps.countP (·.node.opensScope))
    (names : qs.filterMap Place.unknown? = ps.filterMap Place.unknown?) : Covers m before after qs where
  passed s := by
    have passed := h.passed s
    exact ⟨passed.contexts, passed.depth, scopes ▸ passed.opened, scopes ▸ passed.closed, passed.frames,
      names ▸ passed.log⟩
  walks := h.walks

theorem of_eq (h : Covers m before after ps) (places : qs = ps) : Covers m before after qs := places ▸ h

/-- A place where nothing is done but in its parts. -/
theorem silent {p : Place} (hp : p.Silent) (h : Covers m before after ps)
    (parts : p.parts.flatMap Place.all = ps) : Covers m before after p.all := by
  rw [Place.all_eq, parts]
  refine h.congr ?_ ?_
  · rw [List.countP_cons, hp.scope]
    rfl
  · rw [List.filterMap_cons, hp.name]

/-- A place where something is done before its parts. -/
theorem first {p : Place} (h : Covers m before after (p :: ps)) (parts : p.parts.flatMap Place.all = ps) :
    Covers m before after p.all := by
  rwa [Place.all_eq, parts]

/-- A place whose scope is opened behind some of its parts. -/
theorem late {p : Place} (name : p.unknown? = none) (h : Covers m before after (ps ++ p :: qs))
    (parts : p.parts.flatMap Place.all = ps ++ qs) : Covers m before after p.all := by
  rw [Place.all_eq, parts]
  refine h.congr ?_ ?_
  · exact (@List.perm_middle _ p ps qs).symm.countP_eq _
  · rw [List.filterMap_cons, name, List.filterMap_append, List.filterMap_append, List.filterMap_cons, name]

end Covers

/-! ### Nodes -/

/-- Binding a node covers the places of its tree, wherever it stands. -/
structure Covered (n : Node) : Prop where
  whole : ∀ scopes, Covers (passes n).whole scopes (scopes.after [n]) (Place.all ⟨.plain, scopes, n⟩)
  asAttribute : ∀ scopes, Covers (passes n).asAttribute scopes (scopes.after [n])
    (Place.all ⟨.attribute, scopes, n⟩)

namespace Covers
variable {scopes : Scopes} {n : Node} {ns : List Node} {x : Option Node}

theorem visit (h : Covered n) :
    Covers (Binder.visit (part n)) scopes (scopes.after [n]) (Place.all ⟨.plain, scopes, n⟩) :=
  h.whole scopes

theorem list {f : Part → BindM Node} {standing : Standing}
    (h : ∀ n ∈ ns, ∀ scopes,
      Covers (f (part n)) scopes (scopes.after [n]) (Place.all ⟨standing, scopes, n⟩)) :
    Covers ((ns.map part).mapM f) scopes (scopes.after ns) ((inTurn standing scopes ns).flatMap Place.all) := by
  induction ns generalizing scopes with
  | nil =>
    rw [List.map_nil, List.mapM_nil, Scopes.after_nil]
    exact .pure []
  | cons n ns ih =>
    obtain ⟨hn, hns⟩ := List.forall_mem_cons.mp h
    rw [List.map_cons, List.mapM_cons, Scopes.after_cons, inTurn, List.flatMap_cons, ← Scopes.after_singleton]
    exact (hn scopes).bind fun _ => (ih hns).last fun _ => .pure _

theorem visits (h : ∀ n ∈ ns, Covered n) : Covers ((ns.map part).mapM Binder.visit) scopes (scopes.after ns)
    ((inTurn .plain scopes ns).flatMap Place.all) :=
  list fun n hn => (h n hn).whole

theorem attributes (h : ∀ n ∈ ns, Covered n) : Covers ((ns.map part).mapM visitAttribute) scopes (scopes.after ns)
    ((inTurn .attribute scopes ns).flatMap Place.all) :=
  list fun n hn => (h n hn).asAttribute

theorem option (h : ∀ n ∈ x, Covered n) : Covers ((x.map part).mapM Binder.visit) scopes (scopes.after x.toList)
    ((inTurn .plain scopes x.toList).flatMap Place.all) := by
  cases x with
  | none =>
    rw [Option.toList_none, Scopes.after_nil]
    exact .pure none
  | some n =>
    rw [Option.toList_some, inTurn, List.flatMap_cons]
    exact (h n rfl |>.whole scopes).bind fun _ => .pure _

theorem hoistAll (ns : List Node) : Covers ((ns.map part).forM fun part => Binder.hoist part.1) scopes
    (scopes.extend (hoisted ns)) [] := by
  induction ns generalizing scopes with
  | nil =>
    rw [show hoisted [] = [] from rfl, Scopes.extend_nil]
    exact .pure ()
  | cons n ns ih =>
    rw [hoisted_cons, ← Scopes.extend_extend]
    exact (hoist n).bind fun _ => ih

theorem visitScope (h : ∀ n ∈ ns, Covered n) : Covers (Binder.visitScope (ns.map part)) scopes
    ((scopes.extend (hoisted ns)).after ns) ((inTurn .plain (scopes.extend (hoisted ns)) ns).flatMap Place.all) :=
  (hoistAll ns).bind fun _ => visits h

end Covers

end Binder

end BraceLang
