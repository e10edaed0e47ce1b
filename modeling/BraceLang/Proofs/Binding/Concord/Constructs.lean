import BraceLang.Proofs.Binding.Concord
import BraceLang.Proofs.Binding.Frame

/-! Links that a node brings along make no difference to the binder, construct by construct: two nodes that
    differ only in links that binding writes are bound in concord (`mirrors`). -/

namespace BraceLang

namespace Binder
open Lexical

variable {γ : Type} {l : Likeness γ}

/-- The way to bind a part that stands as given. -/
def stepAs : Standing → Part → BindM Node
  | .plain => visit
  | .selector => fun part => pure part.1
  | .macroTarget | .attributeCallee => visitMacroTarget
  | .attribute => visitAttribute

/-- Two nodes are the same but for links, and are bound in concord where they stand. -/
structure Mirrors (l : Likeness γ) (standing : Standing) (n n' : Node) : Prop where
  unlinked : n'.unlinked = n.unlinked
  step : Concord l (stepAs standing (part n)) (stepAs standing (part n'))

/-- The pairs of nodes that stand as given are bound in concord, one by one. -/
def MirrorsAll (l : Likeness γ) (standing : Standing) (pairs : List (Node × Node)) : Prop :=
  ∀ p ∈ pairs, Mirrors l standing p.1 p.2

def MirrorsSeats (l : Likeness γ) (ps : List (Seat × Node × Node)) : Prop :=
  ∀ p ∈ ps, Mirrors l p.1.standing p.2.1 p.2.2

section
variable {p : Seat × Node × Node} {ps qs : List (Seat × Node × Node)}

@[simp] theorem mirrorsSeats_nil : MirrorsSeats l [] ↔ True := iff_true_intro (List.forall_mem_nil _)

@[simp] theorem mirrorsSeats_cons :
    MirrorsSeats l (p :: ps) ↔ Mirrors l p.1.standing p.2.1 p.2.2 ∧ MirrorsSeats l ps := List.forall_mem_cons

@[simp] theorem mirrorsSeats_append :
    MirrorsSeats l (ps ++ qs) ↔ MirrorsSeats l ps ∧ MirrorsSeats l qs := List.forall_mem_append

@[simp] theorem mirrorsSeats_each {seat : Seat} {pairs : List (Node × Node)} :
    MirrorsSeats l (each seat pairs) ↔ MirrorsAll l seat.standing pairs := List.forall_mem_map

@[simp] theorem mirrorsAll_cons {standing : Standing} {p : Node × Node} {pairs : List (Node × Node)} :
    MirrorsAll l standing (p :: pairs) ↔ Mirrors l standing p.1 p.2 ∧ MirrorsAll l standing pairs :=
  List.forall_mem_cons

@[simp] theorem mirrorsAll_nil {standing : Standing} : MirrorsAll l standing [] ↔ True :=
  iff_true_intro (List.forall_mem_nil _)

@[simp] theorem mirrorsAll_append {standing : Standing} {ps qs : List (Node × Node)} :
    MirrorsAll l standing (ps ++ qs) ↔ MirrorsAll l standing ps ∧ MirrorsAll l standing qs :=
  List.forall_mem_append

end

/-! ### Parts -/

theorem hoist_congr {n n' : Node} (h : n'.unlinked = n.unlinked) : hoist n' = hoist n := by
  have same (n : Node) : hoist n.unlinked = hoist n := by
    unfold hoist hoistedName?
    rw [Node.id_unlinked, Node.shape_unlinked]
    cases n.shape <;> rfl
  rw [← same n', h, same n]

namespace Concord
variable {pairs : List (Node × Node)} {x : Option (Node × Node)} {n n' : Node}

theorem hoist (n : Node) : Concord l (Binder.hoist n) (Binder.hoist n) := by
  unfold Binder.hoist
  split
  · exact declare _ n.id
  · exact pure ()

theorem declareAll (names : List Ident) (decl : NodeId) :
    Concord l (names.forM (Binder.declare · decl)) (names.forM (Binder.declare · decl)) := by
  induction names with
  | nil => exact pure ()
  | cons name names ih => exact bind (declare name decl) fun _ => ih

theorem list {f : Part → BindM Node} (h : ∀ p ∈ pairs, Concord l (f (part p.1)) (f (part p.2))) :
    Concord l (((pairs.map Prod.fst).map part).mapM f) (((pairs.map Prod.snd).map part).mapM f) := by
  induction pairs with
  | nil => exact pure []
  | cons p pairs ih =>
    obtain ⟨hp, hpairs⟩ := List.forall_mem_cons.mp h
    simp only [List.map_cons, List.mapM_cons]
    exact bind hp fun n => bind (ih hpairs) fun ns => pure (n :: ns)

theorem visits (h : MirrorsAll l .plain pairs) :
    Concord l (((pairs.map Prod.fst).map part).mapM visit) (((pairs.map Prod.snd).map part).mapM visit) :=
  list fun p hp => (h p hp).step

theorem attributes (h : MirrorsAll l .attribute pairs) :
    Concord l (((pairs.map Prod.fst).map part).mapM visitAttribute)
      (((pairs.map Prod.snd).map part).mapM visitAttribute) :=
  list fun p hp => (h p hp).step

theorem option (h : MirrorsAll l .plain x.toList) :
    Concord l (((x.map Prod.fst).map part).mapM visit) (((x.map Prod.snd).map part).mapM visit) := by
  cases x with
  | none => exact pure none
  | some p => exact bind (h p List.mem_cons_self).step fun n => pure (some n)

theorem hoistAll (h : MirrorsAll l .plain pairs) :
    Concord l (((pairs.map Prod.fst).map part).forM fun part => Binder.hoist part.1)
      (((pairs.map Prod.snd).map part).forM fun part => Binder.hoist part.1) := by
  induction pairs with
  | nil => exact pure ()
  | cons p pairs ih =>
    obtain ⟨hp, hpairs⟩ := mirrorsAll_cons.mp h
    refine bind ?_ fun _ => ih hpairs
    simp only [part_fst]
    rw [hoist_congr hp.unlinked]
    exact hoist p.1

theorem visitScope (h : MirrorsAll l .plain pairs) :
    Concord l (Binder.visitScope ((pairs.map Prod.fst).map part))
      (Binder.visitScope ((pairs.map Prod.snd).map part)) := bind (hoistAll h) fun _ => visits h

/-- A construct whose parts are bound in source order. -/
theorem traverse {pairs : Shape (Node × Node)} (plain : isPlain pairs = true)
    (h : MirrorsAll l .plain pairs.toList) :
    Concord l (((pairs.map Prod.fst).map part).traverse visit)
      (((pairs.map Prod.snd).map part).traverse visit) := by
  cases pairs <;> simp only [Shape.toList, List.cons_append, mirrorsAll_cons, mirrorsAll_append] at h
  case bool | int | float | char | str | null | dot | prim => exact pure _
  case group | prefixed | postfixed | spread | fieldInit | exprStmt | pointer | optional =>
    exact bind h.1.step fun _ => pure _
  case template | tuple | array | tupleType => exact bind (visits h) fun _ => pure _
  case yield => exact bind (option h) fun _ => pure _
  case binary | assign | cast => exact bind h.1.step fun _ => bind h.2.1.step fun _ => pure _
  case call | new | index | structLiteral => exact bind h.1.step fun _ => bind (visits h.2) fun _ => pure _
  case signature | funcType => exact bind (visits h.1) fun _ => bind (option h.2) fun _ => pure _
  case arrayType => exact bind h.1.step fun _ => bind (option h.2) fun _ => pure _
  case ternary =>
    exact bind h.1.step fun _ => bind (option h.2.1) fun _ => bind h.2.2.1.step fun _ => pure _
  all_goals cases plain

end Concord

/-! ### Constructs -/

/-- A node with the one parts or the other is bound in concord. -/
def Steady (l : Likeness γ) (n : Node) (pairs : Shape (Node × Node)) : Prop :=
  Concord l (bindWhole n ((pairs.map Prod.fst).map part)) (bindWhole n ((pairs.map Prod.snd).map part))

section Constructs
variable {n : Node} {attrs generics members args : List (Node × Node)} {first second : Node × Node}
variable {type init condition step body : Option (Node × Node)} {mods : Modifiers} {name : Ident}

theorem steady_plain {pairs : Shape (Node × Node)} (plain : isPlain pairs = true)
    (h : MirrorsAll l .plain pairs.toList) : Steady l n pairs := by
  unfold Steady
  rw [bindWhole_plain n (by rwa [isPlain_map, isPlain_map]),
    bindWhole_plain n (by rwa [isPlain_map, isPlain_map])]
  exact .bind (.traverse plain h) fun _ => .pure _

theorem steady_member {optional : Bool} (hfirst : Mirrors l .plain first.1 first.2)
    (hsecond : Mirrors l .selector second.1 second.2) : Steady l n (.member first second optional) := by
  refine .bind hfirst.step fun target => ?_
  have close (part : Part) : (pure { n with shape := .member target part.1 optional } : BindM Node) =
      stepAs .selector part >>= fun member => pure { n with shape := .member target member optional } := rfl
  rw [close, close]
  exact .bind hsecond.step fun _ => .pure _

theorem steady_var {isConst : Bool} {pattern : Pattern} (hattrs : MirrorsAll l .attribute attrs)
    (htype : MirrorsAll l .plain type.toList) (hinit : MirrorsAll l .plain init.toList) :
    Steady l n (.var attrs mods isConst pattern type init) :=
  .bind (.attributes hattrs) fun _ => .bind (.option htype) fun _ => .bind (.option hinit) fun _ =>
    .bind (.declareAll pattern.names n.id) fun _ => .pure _

theorem steady_func {isAsync : Bool} {operator : Option Kind} (hattrs : MirrorsAll l .attribute attrs)
    (hgenerics : MirrorsAll l .plain generics) (hfirst : Mirrors l .plain first.1 first.2)
    (hbody : MirrorsAll l .plain body.toList) :
    Steady l n (.func attrs mods isAsync name operator generics first body) :=
  .bind (.attributes hattrs) fun _ => .inScope <| .bind (.visits hgenerics) fun _ =>
    .bind hfirst.step fun _ => .bind (.inContext (.option hbody)) fun _ => .pure _

theorem steady_closure {isAsync : Bool} (hfirst : Mirrors l .plain first.1 first.2)
    (hsecond : Mirrors l .plain second.1 second.2) : Steady l n (.closure isAsync first second) :=
  .inScope <| .bind hfirst.step fun _ => .bind (.inContext hsecond.step) fun _ => .pure _

theorem steady_struct (hattrs : MirrorsAll l .attribute attrs) (hgenerics : MirrorsAll l .plain generics)
    (hmembers : MirrorsAll l .plain members) : Steady l n (.struct attrs mods name generics members) :=
  .bind (.attributes hattrs) fun _ => .inScope <| .bind (.visits hgenerics) fun _ =>
    .bind (.visitScope hmembers) fun _ => .pure _

theorem steady_enum (hattrs : MirrorsAll l .attribute attrs) (htype : MirrorsAll l .plain type.toList)
    (hmembers : MirrorsAll l .plain members) : Steady l n (.enum attrs mods name type members) :=
  .bind (.attributes hattrs) fun _ => .bind (.option htype) fun _ => .inScope <|
    .bind (.visits hmembers) fun _ => .pure _

theorem steady_typeAlias (hattrs : MirrorsAll l .attribute attrs) (hgenerics : MirrorsAll l .plain generics)
    (hfirst : Mirrors l .plain first.1 first.2) : Steady l n (.typeAlias attrs mods name generics first) :=
  .bind (.attributes hattrs) fun _ => .inScope <| .bind (.visits hgenerics) fun _ =>
    .bind hfirst.step fun _ => .pure _

theorem steady_union (hattrs : MirrorsAll l .attribute attrs) (hgenerics : MirrorsAll l .plain generics)
    (hmembers : MirrorsAll l .plain members) : Steady l n (.union attrs mods name generics members) :=
  .bind (.attributes hattrs) fun _ => .inScope <| .bind (.visits hgenerics) fun _ =>
    .bind (.visits hmembers) fun _ => .pure _

theorem steady_field {isPrivate : Bool} (hattrs : MirrorsAll l .attribute attrs)
    (hfirst : Mirrors l .plain first.1 first.2) (hinit : MirrorsAll l .plain init.toList) :
    Steady l n (.field attrs isPrivate name first init) :=
  .bind (.attributes hattrs) fun _ => .bind hfirst.step fun _ => .bind (.option hinit) fun _ =>
    .bind (.declare name n.id) fun _ => .pure _

theorem steady_enumOption (hattrs : MirrorsAll l .attribute attrs) (hinit : MirrorsAll l .plain init.toList) :
    Steady l n (.enumOption attrs name init) :=
  .bind (.attributes hattrs) fun _ => .bind (.option hinit) fun _ => .bind (.declare name n.id) fun _ => .pure _

theorem steady_ifElse (hfirst : Mirrors l .plain first.1 first.2) (hsecond : Mirrors l .plain second.1 second.2)
    (hbody : MirrorsAll l .plain body.toList) : Steady l n (.ifElse first second body) := by
  have same : isVariable first.2 = isVariable first.1 := bindsVariable_congr hfirst.unlinked
  show Concord l (inScopeIf (isVariable first.1) _) (inScopeIf (isVariable first.2) _)
  rw [same]
  exact .inScopeIf <| .bind hfirst.step fun _ => .bind hsecond.step fun _ => .bind (.option hbody) fun _ => .pure _

theorem steady_whileLoop (hfirst : Mirrors l .plain first.1 first.2)
    (hsecond : Mirrors l .plain second.1 second.2) : Steady l n (.whileLoop first second) := by
  have same : isVariable first.2 = isVariable first.1 := bindsVariable_congr hfirst.unlinked
  show Concord l (inScopeIf (isVariable first.1) _) (inScopeIf (isVariable first.2) _)
  rw [same]
  exact .inScopeIf <| .bind hfirst.step fun _ => .bind (.inContext hsecond.step) fun _ => .pure _

theorem steady_forLoop (hinit : MirrorsAll l .plain init.toList)
    (hcondition : MirrorsAll l .plain condition.toList) (hstep : MirrorsAll l .plain step.toList)
    (hfirst : Mirrors l .plain first.1 first.2) : Steady l n (.forLoop init condition step first) :=
  .inScope <| .bind (.option hinit) fun _ => .inContext <| .bind (.option hcondition) fun _ =>
    .bind (.option hstep) fun _ => .bind hfirst.step fun _ => .pure _

theorem steady_deferred (hfirst : Mirrors l .plain first.1 first.2) : Steady l n (.deferred first) := by
  show Concord l (hoist first.1 >>= fun _ => _) (hoist first.2 >>= fun _ => _)
  rw [hoist_congr hfirst.unlinked]
  exact .bind (.hoist first.1) fun _ => .bind hfirst.step fun _ => .pure _

theorem steady (n : Node) (pairs : Shape (Node × Node)) (h : MirrorsSeats l (seats .plain pairs)) :
    Steady l n pairs := by
  by_cases plain : isPlain pairs = true
  · refine steady_plain plain fun p hp => ?_
    have seated : seats .plain pairs = each Seat.plain pairs.toList := by
      cases pairs <;> first | rfl | cases plain
    rw [seated] at h
    exact mirrorsSeats_each.mp h p hp
  cases pairs <;>
    simp only [seats, Shape.toList, each_cons, each_nil, each_append, mirrorsSeats_append, mirrorsSeats_cons,
      mirrorsSeats_each, Seat.standing_plain, Seat.standing_attribute] at h
  case name => exact .bind (.resolve _ _) fun _ => .pure _
  case named => exact .bind (.resolve _ _) fun _ => .bind (.visits h) fun _ => .pure _
  case member => exact steady_member h.1 h.2.1
  case macroName => exact .bind h.1.step fun _ => .pure _
  case macroCall => exact .bind h.1.step fun _ => .bind (.visits h.2) fun _ => .pure _
  case returned => exact .bind (.jump _ _ _) fun _ => .bind (.option h) fun _ => .pure _
  case broken | continued => exact .bind (.jump _ _ _) fun _ => .pure _
  case var => exact steady_var h.1 h.2.1 h.2.2
  case func => exact steady_func h.1 h.2.1.1 h.2.1.2.1 h.2.2
  case closure => exact steady_closure h.1 h.2.1
  case param =>
    exact .bind (.option h.1) fun _ => .bind (.option h.2) fun _ => .bind (.declare _ _) fun _ => .pure _
  case generic => exact .bind (.visits h) fun _ => .bind (.declare _ _) fun _ => .pure _
  case struct => exact steady_struct h.1 h.2.1 h.2.2
  case field => exact steady_field h.1 h.2.1 h.2.2
  case enum => exact steady_enum h.1 h.2.1 h.2.2
  case enumOption => exact steady_enumOption h.1 h.2
  case typeAlias => exact steady_typeAlias h.1 h.2.1 h.2.2.1
  case union => exact steady_union h.1 h.2.1 h.2.2
  case block => exact .inScope <| .bind (.visitScope h) fun _ => .pure _
  case ifElse => exact steady_ifElse h.1 h.2.1 h.2.2
  case whileLoop => exact steady_whileLoop h.1 h.2.1
  case forLoop => exact steady_forLoop h.1 h.2.1.1 h.2.1.2 h.2.2.1
  case deferred => exact steady_deferred h.1
  all_goals exact absurd rfl plain

end Constructs

/-! ### Wherever a node stands -/

section
variable {standing : Standing} {n n' : Node}

/-- A node without parts that cannot be linked stays as it is. -/
theorem eq_of_relinks (h : Relinks standing n n') (bare : standing.links n.shape = false)
    (leaf : n.children = []) : n' = n := by
  obtain ⟨pairs, before, after, id, range, link, -⟩ := h
  have none : pairs.toList = [] := by
    rw [Node.children, before, Shape.toList_map] at leaf
    exact List.map_eq_nil_iff.mp leaf
  have shape : n'.shape = n.shape := by
    rw [before, after]
    refine Shape.map_congr fun p hp => ?_
    rw [none] at hp
    cases hp
  rw [bare] at link
  cases n
  cases n'
  obtain rfl := id
  obtain rfl := range
  obtain rfl := shape
  obtain rfl := link.resolve_right Bool.false_ne_true
  rfl

theorem children_of_isSelector (h : n.isSelector) : n.children = [] := by
  unfold Node.isSelector at h
  rw [Node.children]
  generalize n.shape = shape at h
  cases shape <;> first | rfl | cases h

/-- Nothing of a node but its identity and its range counts where its link is written. -/
theorem bindWhole_congr {pairs : Shape (Node × Node)} (before : n.shape = pairs.map Prod.fst)
    (after : n'.shape = pairs.map Prod.snd) (id : n'.id = n.id) (range : n'.range = n.range)
    (link : n'.resolved = n.resolved ∨ Standing.plain.links n.shape = true) (parts : Shape Part)
    (hparts : parts = (pairs.map Prod.snd).map part) : bindWhole n' parts = bindWhole n parts := by
  obtain ⟨id', range', resolved', shape'⟩ := n'
  obtain ⟨id, range, resolved, shape⟩ := n
  obtain rfl := id
  obtain rfl := range
  obtain rfl := before
  obtain rfl := after
  subst hparts
  by_cases links : Standing.plain.links (pairs.map Prod.fst) = true
  · cases pairs <;> first | rfl | cases links
  · obtain rfl := link.resolve_right links
    cases pairs <;> rfl

theorem links_plain {α : Type} {shape : Shape α} (h : standing.links shape = true) :
    Standing.plain.links shape = true := by
  cases shape <;> first | rfl | cases h

/-- A node whose parts are bound in concord where they stand is so itself. -/
theorem concord_whole {pairs : Shape (Node × Node)} (before : n.shape = pairs.map Prod.fst)
    (after : n'.shape = pairs.map Prod.snd) (id : n'.id = n.id) (range : n'.range = n.range)
    (link : n'.resolved = n.resolved ∨ standing.links n.shape = true)
    (h : MirrorsSeats l (seats .plain pairs)) : Concord l (visit (part n)) (visit (part n')) := by
  have hsteady := steady n pairs h
  rw [Steady, ← bindWhole_congr before after id range (link.imp_right links_plain) _ rfl] at hsteady
  show Concord l (passes n).whole (passes n').whole
  rw [passes_eq, passes_eq, before, after]
  exact hsteady

/-- Only the member of a selection stands as one. -/
theorem isSelector_of_seats {shape : Shape Node} (proper : shape.selectsProperly = true) :
    ∀ p ∈ seats standing shape, p.1.standing = .selector → p.2.isSelector := by
  intro p hp hs
  cases shape
  case member =>
    rcases List.mem_cons.mp hp with rfl | hp
    · cases hs
    · exact List.mem_singleton.mp hp ▸ proper
  all_goals
    simp only [seats, List.mem_append, List.mem_cons, List.not_mem_nil, mem_each] at hp
    grind [Seat.plain, Seat.attribute]

/-- An attribute that is a call. Its callee is left as it is if it is a bare name. -/
theorem concord_attributeCall {callee : Node × Node} {args : List (Node × Node)}
    (hcallee : Mirrors l .attributeCallee callee.1 callee.2) (hargs : MirrorsAll l .plain args)
    (id : n'.id = n.id) (range : n'.range = n.range) (resolved : n'.resolved = n.resolved) :
    Concord l (bindAttribute n (.call (part callee.1) ((args.map Prod.fst).map part)))
      (bindAttribute n' (.call (part callee.2) ((args.map Prod.snd).map part))) := by
  have steps (n : Node) (callee : Part) (args : List Part) : bindAttribute n (.call callee args) =
      visitMacroTarget callee >>= fun callee => args.mapM visit >>= fun args =>
        pure ⟨n.id, n.range, n.resolved, .call callee args⟩ := by
    unfold visitMacroTarget
    rw [bindAttribute]
    split <;> rfl
  rw [steps, steps, id, range, resolved]
  exact .bind hcallee.step fun _ => .bind (.visits hargs) fun _ => .pure _

theorem concord_attribute (h : Relinks .attribute n n') {pairs : Shape (Node × Node)}
    (before : n.shape = pairs.map Prod.fst) (after : n'.shape = pairs.map Prod.snd) (id : n'.id = n.id)
    (range : n'.range = n.range) (link : n'.resolved = n.resolved ∨ Standing.attribute.links n.shape = true)
    (mirrored : MirrorsSeats l (seats .attribute pairs)) :
    Concord l (visitAttribute (part n)) (visitAttribute (part n')) := by
  show Concord l (passes n).asAttribute (passes n').asAttribute
  rw [passes_eq, passes_eq]
  show Concord l (bindAttribute n (n.shape.map part)) (bindAttribute n' (n'.shape.map part))
  by_cases name : isName n
  · have same : n' = n := eq_of_relinks h (Standing.links_of_isName name Standing.noConfusion)
      (children_of_isSelector (isSelector_of_isName name))
    rw [same, bindAttribute_name name]
    exact .pure n
  by_cases call : ∃ callee args, pairs = .call callee args
  · obtain ⟨callee, args, rfl⟩ := call
    obtain ⟨hcallee, hargs⟩ := mirrorsSeats_cons.mp mirrored
    rw [before] at link
    rw [before, after]
    exact concord_attributeCall hcallee (mirrorsSeats_each.mp hargs) id range
      (link.resolve_right Bool.false_ne_true)
  · have other (f : Node × Node → Node) : ∀ callee args, pairs.map f ≠ .call callee args := by
      intro callee args hn
      cases pairs <;> first | exact call ⟨_, _, rfl⟩ | cases hn
    rw [seats_restand fun _ callee args hn => call ⟨callee, args, hn⟩] at mirrored
    have whole : Concord l (passes n).whole (passes n').whole :=
      concord_whole before after id range link mirrored
    rw [passes_eq, passes_eq] at whole
    rw [bindAttribute_other name (before ▸ other _),
      bindAttribute_other (by rwa [isName_congr h.unlinked]) (after ▸ other _)]
    exact whole

/-- Nodes that differ in links only, and only where binding writes them, are bound in concord. -/
theorem mirrors (h : Relinks standing n n') (proper : n.ProperMembers)
    (selector : standing = .selector → n.isSelector) : Mirrors l standing n n' := by
  induction n using Node.induct generalizing standing n' with
  | step n ih =>
    refine ⟨h.unlinked, ?_⟩
    have relinked := h
    obtain ⟨pairs, before, after, id, range, link, parts⟩ := h
    have mirrored : MirrorsSeats l (seats standing pairs) := by
      intro p hp
      have hpart : (p.1, p.2.1) ∈ seats standing n.shape := by
        rw [before, seats_map]
        exact List.mem_map.mpr ⟨p, hp, rfl⟩
      have hchild : p.2.1 ∈ n.children := by
        rw [Node.children, ← map_snd_seats standing]
        exact List.mem_map_of_mem hpart
      cases proper with
      | mk member proper =>
        exact ih p.2.1 hchild (parts p hp) (proper _ hchild) (isSelector_of_seats member _ hpart)
    -- A bare name that stands for no value is left as it is, in both runs.
    have bare (name : isName n = true) (other : standing ≠ .plain) : n' = n :=
      eq_of_relinks relinked (Standing.links_of_isName name other)
        (children_of_isSelector (isSelector_of_isName name))
    have target (other : standing ≠ .plain) (noAttribute : standing ≠ .attribute) :
        Concord l (visitMacroTarget (part n)) (visitMacroTarget (part n')) := by
      unfold visitMacroTarget
      rw [part_fst, part_fst, isName_congr relinked.unlinked]
      split
      · rw [bare ‹_› other]
        exact .pure n
      · rw [seats_restand fun h => absurd h noAttribute] at mirrored
        exact concord_whole before after id range link mirrored
    cases standing
    case plain => exact concord_whole before after id range link mirrored
    case selector =>
      have same : n' = n :=
        eq_of_relinks relinked (Standing.links_selector _) (children_of_isSelector (selector rfl))
      rw [same]
      exact .pure n
    case macroTarget | attributeCallee => exact target Standing.noConfusion Standing.noConfusion
    exact concord_attribute relinked before after id range link mirrored

end

end Binder

end BraceLang
