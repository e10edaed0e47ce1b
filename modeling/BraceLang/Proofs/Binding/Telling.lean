import BraceLang.Proofs.Binding.Account

/-! What the steps of the binder report. A step is described by the contexts it runs in, by what is
    declared in the innermost scope before and after it, and by the account of what it tells apart from
    redefinitions in that scope (`Tells`). Those are kept out of the account until the scope is closed:
    only then is it known what is declared in it. -/

namespace BraceLang

namespace Lexical

theorem redefined_nil : redefined [] = 0 := rfl

/-- What a further declaration in a scope adds to its redefinitions. -/
theorem redefined_concat (scope : List Introduction) (d : Introduction) :
    redefined (scope ++ [d]) =
      ((↑((firstOf? scope d.text).toList.map fun first => redefinition (first, d)), 0) : Account) +
        redefined scope := by
  have h := Multiset.coe_eq_coe.mpr ((redefinitions_concat scope d).map redefinition)
  rw [List.map_append, ← Multiset.coe_add, List.map_map, add_comm] at h
  exact Prod.ext h rfl

end Lexical

namespace Binder
open Lexical

/-! ### Places on a walk -/

/-- A frame has the first declaration of every name of a scope, and no other. -/
def Records (frame : Scope) (scope : List Introduction) : Prop :=
  ∀ name, frame.get? name = (firstOf? scope name).map fun d => ⟨d.decl, some d.name.range⟩

theorem Records.empty : Records .empty [] := Scope.get?_empty

/-- A name that is there already is not declared by a further declaration. -/
theorem Records.again {frame : Scope} {scope : List Introduction} {d first : Introduction}
    (h : Records frame scope) (hfirst : firstOf? scope d.text = some first) :
    Records frame (scope ++ [d]) := by
  intro x
  rw [h x, firstOf?, firstOf?, List.find?_append]
  by_cases hx : d.text = x
  · rw [firstOf?, hx] at hfirst
    rw [hfirst, Option.some_or]
  · simp [hx]

theorem Records.insert {frame : Scope} {scope : List Introduction} {d : Introduction}
    (h : Records frame scope) (hnew : firstOf? scope d.text = none) :
    Records (frame.insert d.text ⟨d.decl, some d.name.range⟩) (scope ++ [d]) := by
  intro x
  have hname : frame.get? d.text = none := by rw [h, hnew, Option.map_none]
  rw [Scope.get?_insert hname, h x, firstOf?, firstOf?, List.find?_append]
  by_cases hx : d.text = x
  · rw [firstOf?, hx] at hnew
    simp [hnew, hx]
  · simp [hx, Ne.symm hx]

/-- The binder is inside these contexts, in a scope in which so much is declared, with frames around
    it. -/
structure At (contexts : List Context) (scope : List Introduction) (outer : List Scope) (s : State) :
    Prop where
  contexts : s.contexts = contexts
  scopes : ∃ frame, s.scopes.openScopes = frame :: outer ∧ Records frame scope

/-- From `s` to `t` these diagnostics are logged and so many names linked. -/
structure Reports (s t : State) (new : List Diagnostic) (links : Nat) : Prop where
  log : t.log = s.log.append new
  errors : t.errors = s.errors + new.length
  resolved : t.resolved = s.resolved + links
  kinds : ∀ d ∈ new, ∃ e : BindError, d = e.toDiagnostic

theorem Reports.nothing {s t : State} (hlog : t.log = s.log) (herrors : t.errors = s.errors)
    (hresolved : t.resolved = s.resolved) : Reports s t [] 0 :=
  ⟨hlog, herrors, hresolved, List.forall_mem_nil _⟩

theorem Reports.trans {s t u : State} {ds es : List Diagnostic} {k l : Nat} (h : Reports s t ds k)
    (h' : Reports t u es l) : Reports s u (ds ++ es) (k + l) where
  log := by rw [h'.log, h.log, Log.append_append]
  errors := by rw [h'.errors, h.errors, List.length_append, Nat.add_assoc]
  resolved := by rw [h'.resolved, h.resolved, Nat.add_assoc]
  kinds := List.forall_mem_append.mpr ⟨h.kinds, h'.kinds⟩

theorem Reports.report (e : BindError) (s : State) : Reports s (report e s).2 [e.toDiagnostic] 0 :=
  ⟨rfl, rfl, rfl, List.forall_mem_singleton.mpr ⟨e, rfl⟩⟩

def said (new : List Diagnostic) (links : Nat) : Account := (↑(new.map Diagnostic.finding), links)

theorem said_append (ds es : List Diagnostic) (k l : Nat) :
    said (ds ++ es) (k + l) = said ds k + said es l := by
  rw [said, List.map_append, ← Multiset.coe_add]
  rfl

/-! ### Steps -/

/-- Inside these contexts, where `before` is declared in the innermost scope, the step leaves `after`
    declared there; what it reports is what `post` says of it and of what it gives, and what `after` has
    declared again and `before` has not. -/
def Tells {α : Type} (contexts : List Context) (before after : List Introduction) (m : BindM α)
    (post : α → Account → Prop) : Prop :=
  ∀ s outer, At contexts before outer s → ∃ new links told,
    At contexts after outer (m s).2 ∧ Reports s (m s).2 new links ∧
      said new links + redefined before = told + redefined after ∧ post (m s).1 told

namespace Tells
variable {α β : Type} {contexts : List Context} {before between after : List Introduction}

theorem pure {a : α} {post : α → Account → Prop} (h : post a 0) :
    Tells contexts before before (pure a) post := by
  intro s outer hs
  refine ⟨[], 0, 0, hs, .nothing rfl rfl rfl, ?_, h⟩
  rfl

theorem bind {m : BindM α} {f : α → BindM β} {mid : α → Account → Prop} {post : β → Account → Prop}
    (hm : Tells contexts before between m mid)
    (hf : ∀ a told, mid a told → Tells contexts between after (f a) fun b more => post b (told + more)) :
    Tells contexts before after (m >>= f) post := by
  intro s outer hs
  obtain ⟨ds, k, told, ht, hds, hsum, ha⟩ := hm s outer hs
  obtain ⟨es, l, more, hu, hes, hsum', hb⟩ := hf _ told ha _ outer ht
  refine ⟨ds ++ es, k + l, told + more, hu, hds.trans hes, ?_, hb⟩
  -- What `between` has declared again cancels: the first step adds it, the second starts from it.
  calc said (ds ++ es) (k + l) + redefined before
      = said es l + (said ds k + redefined before) := by rw [said_append]; abel
    _ = told + (said es l + redefined between) := by rw [hsum]; abel
    _ = told + more + redefined after := by rw [hsum', add_assoc]

/-- A step whose outcome is only put in a form. -/
theorem returning {m : BindM α} {f : α → β} {mid : α → Account → Prop} {post : β → Account → Prop}
    (hm : Tells contexts before after m mid) (hf : ∀ a told, mid a told → post (f a) told) :
    Tells contexts before after (m >>= fun a => Pure.pure (f a)) post := by
  intro s outer hs
  obtain ⟨new, links, told, ht, hnew, hsum, ha⟩ := hm s outer hs
  exact ⟨new, links, told, ht, hnew, hsum, hf _ told ha⟩

theorem mono {m : BindM α} {post weaker : α → Account → Prop} (hm : Tells contexts before after m post)
    (h : ∀ a told, post a told → weaker a told) : Tells contexts before after m weaker := by
  intro s outer hs
  obtain ⟨new, links, told, ht, hnew, hsum, ha⟩ := hm s outer hs
  exact ⟨new, links, told, ht, hnew, hsum, h _ told ha⟩

/-- A scope is closed, and what was declared again in it goes into the account. -/
theorem inScope {m : BindM α} {scope : List Introduction} {post : α → Account → Prop}
    (h : Tells contexts [] scope m fun a told => post a (told + redefined scope)) :
    Tells contexts before before (Binder.inScope m) post := by
  rintro s outer ⟨hcontexts, frame, hopen, hframe⟩
  obtain ⟨new, links, told, ht, hnew, hsum, ha⟩ := h { s with scopes := s.scopes.push } (frame :: outer)
    ⟨hcontexts, .empty, by rw [ScopeStack.openScopes_push, hopen], .empty⟩
  -- Whatever the step leaves in the inner frame goes away with it; the frames around are as before.
  obtain ⟨inner, hinner, -⟩ := ht.scopes
  refine ⟨new, links, told + redefined scope, ⟨ht.contexts, frame, ?_, hframe⟩,
    ⟨hnew.log, hnew.errors, hnew.resolved, hnew.kinds⟩, ?_, ha⟩
  · show (m { s with scopes := s.scopes.push }).2.scopes.pop.openScopes = frame :: outer
    rw [ScopeStack.openScopes_pop, hinner, List.tail_cons]
  · rw [← hsum, redefined_nil, add_zero]

theorem inContext {m : BindM α} {context : Context} {post : α → Account → Prop}
    (h : Tells (context :: contexts) before after m post) :
    Tells contexts before after (Binder.inContext context m) post := by
  intro s outer hs
  obtain ⟨new, links, told, ht, hnew, hsum, ha⟩ := h { s with contexts := context :: s.contexts } outer
    ⟨congrArg _ hs.contexts, hs.scopes⟩
  exact ⟨new, links, told, ⟨congrArg List.tail ht.contexts, ht.scopes⟩,
    ⟨hnew.log, hnew.errors, hnew.resolved, hnew.kinds⟩, hsum, ha⟩

theorem declare (name : Ident) (decl : NodeId) :
    Tells contexts before (before ++ [⟨name, decl⟩]) (Binder.declare name decl) fun _ told => told = 0 := by
  rintro s outer ⟨hcontexts, frame, hopen, hframe⟩
  have hsum := redefined_concat before ⟨name, decl⟩
  rw [Binder.declare, get_bind]
  cases hfirst : firstOf? before (Introduction.text ⟨name, decl⟩) with
  | some first =>
    have hname : frame.get? name.text = some ⟨first.decl, some first.name.range⟩ :=
      (hframe _).trans (congrArg _ hfirst)
    -- The first declaration stays, and the diagnostic points to it.
    rw [ScopeStack.define_declared hopen hname]
    refine ⟨_, 0, 0, ⟨hcontexts, frame, hopen, hframe.again hfirst⟩, .report _ s, ?_, rfl⟩
    rw [zero_add, hsum, hfirst, said, List.map_singleton, BindError.finding_toDiagnostic]
    rfl
  | none =>
    have hname : frame.get? name.text = none := (hframe _).trans (congrArg _ hfirst)
    obtain ⟨t, ht, htopen⟩ := ScopeStack.define_new hopen hname ⟨decl, some name.range⟩
    rw [ht]
    refine ⟨[], 0, 0, ⟨hcontexts, _, htopen, hframe.insert hfirst⟩, .nothing rfl rfl rfl, ?_, rfl⟩
    rw [hsum, hfirst]
    rfl

theorem declareAll (names : List Ident) (decl : NodeId) :
    Tells contexts before (before ++ names.map (⟨·, decl⟩)) (names.forM (Binder.declare · decl))
      fun _ told => told = 0 := by
  induction names generalizing before with
  | nil =>
    rw [List.map_nil, List.append_nil]
    exact .pure rfl
  | cons name names ih =>
    rw [List.map_cons, ← List.singleton_append, ← List.append_assoc]
    refine bind (declare name decl) fun _ told htold => ih.mono fun _ more hmore => ?_
    rw [htold, hmore, add_zero]

theorem hoist (n : Node) :
    Tells contexts before (before ++ (ahead? n).toList) (Binder.hoist n) fun _ told => told = 0 := by
  obtain ⟨id, range, resolved, shape⟩ := n
  cases shape
  case func | struct | enum | union | typeAlias => exact declare _ _
  all_goals
    rw [ahead?, Option.toList_none, List.append_nil]
    exact .pure rfl

theorem resolve (name : String) (range : Range) :
    Tells contexts before before (Binder.resolve name range) fun resolved told =>
      told = (↑(if resolved.isSome then [] else [(BindCause.undefined name none).finding range]),
        if resolved.isSome then 1 else 0) := by
  intro s outer hs
  rw [Binder.resolve, get_bind]
  cases s.scopes.lookup? name with
  | some b =>
    exact ⟨[], 1, _, ⟨hs.contexts, hs.scopes⟩, ⟨rfl, rfl, rfl, List.forall_mem_nil _⟩, rfl, rfl⟩
  | none =>
    refine ⟨_, 0, _, ⟨hs.contexts, hs.scopes⟩, .report _ s, ?_, rfl⟩
    rw [said, List.map_singleton, BindError.finding_toDiagnostic]
    rfl

theorem jump (target : List Context → Option NodeId) (cause : BindCause) (range : Range) :
    Tells contexts before before (Binder.jump target cause range) fun resolved told =>
      resolved = target contexts ∧
        told = (↑(if resolved.isSome then [] else [cause.finding range]), 0) := by
  intro s outer hs
  rw [Binder.jump, get_bind, hs.contexts]
  cases target contexts with
  | some id => exact ⟨[], 0, _, hs, .nothing rfl rfl rfl, rfl, rfl, rfl⟩
  | none =>
    refine ⟨_, 0, _, ⟨hs.contexts, hs.scopes⟩, .report _ s, ?_, rfl, rfl⟩
    rw [said, List.map_singleton, BindError.finding_toDiagnostic]
    rfl

end Tells

/-! ### Nodes one after another -/

/-- `ns'` are the nodes `ns` but for their links; every jump in them is linked to what it leaves, and what
    was told is their account. -/
structure Settled (standing : Standing) (contexts : List Context) (ns ns' : List Node) (told : Account) :
    Prop where
  unlinked : ns'.map Node.unlinked = ns.map Node.unlinked
  jumps : ∀ n ∈ ns', JumpsLinked contexts n
  told : told = accounts standing ns'

namespace Settled
variable {standing : Standing} {contexts : List Context} {as as' bs bs' : List Node} {n n' : Node}
variable {x x' : Option Node} {told more : Account}

theorem nil : Settled standing contexts [] [] 0 := ⟨rfl, List.forall_mem_nil _, rfl⟩

theorem append (ha : Settled standing contexts as as' told) (hb : Settled standing contexts bs bs' more) :
    Settled standing contexts (as ++ bs) (as' ++ bs') (told + more) where
  unlinked := by rw [List.map_append, List.map_append, ha.unlinked, hb.unlinked]
  jumps := List.forall_mem_append.mpr ⟨ha.jumps, hb.jumps⟩
  told := by rw [accounts_append, ha.told, hb.told]

theorem cons (ha : Settled standing contexts [n] [n'] told) (hb : Settled standing contexts bs bs' more) :
    Settled standing contexts (n :: bs) (n' :: bs') (told + more) :=
  ha.append hb

theorem node (h : Settled standing contexts [n] [n'] told) : n'.unlinked = n.unlinked := by
  simpa using h.unlinked

theorem option (h : Settled standing contexts x.toList x'.toList told) :
    x'.map Node.unlinked = x.map Node.unlinked := by
  have := h.unlinked
  cases x <;> cases x' <;> simp_all

end Settled

/-- Every jump in the parts of a node is linked to what it leaves, and what was told is the account of
    the parts. -/
structure Seated (id : NodeId) (contexts : List Context) (parts : List (Seat × Node)) (told : Account) :
    Prop where
  jumps : ∀ p ∈ parts, JumpsLinked ((Region.context? p.1.region id).toList ++ contexts) p.2
  told : told = (parts.map fun p => account p.1.standing p.2).sum

section Seats
variable {standing : Standing} {contexts : List Context} {ns ns' : List Node} {n : Node} {id : NodeId}
variable {told more : Account}

theorem Settled.seated (region : Region)
    (h : Settled standing ((Region.context? region id).toList ++ contexts) ns ns' told) :
    Seated id contexts (each (Seat.mk standing region) ns') told where
  jumps p hp := by
    obtain ⟨n, hn, rfl⟩ := List.mem_map.mp hp
    exact h.jumps n hn
  told := by
    rw [h.told, map_each]
    rfl

theorem Seated.nil : Seated id contexts [] 0 := ⟨List.forall_mem_nil _, rfl⟩

theorem Seated.append {ps qs : List (Seat × Node)} (hp : Seated id contexts ps told)
    (hq : Seated id contexts qs more) : Seated id contexts (ps ++ qs) (told + more) where
  jumps := List.forall_mem_append.mpr ⟨hp.jumps, hq.jumps⟩
  told := by rw [hp.told, hq.told, List.map_append, List.sum_append]

/-- A node that the binder has linked, with the parts it has bound. -/
theorem Settled.of_shape {shape : Shape Node} {resolved : Option NodeId} {ps : List (Seat × Node)}
    {parts : Account}
    (hshape : shape.map Node.unlinked = n.shape.map Node.unlinked)
    (hjump : JumpLinked contexts { n with resolved, shape }) (hparts : Seated n.id contexts ps parts)
    (hseats : seats standing shape = ps)
    (htold : told = noted standing { n with resolved, shape } + overlaps n + parts) :
    Settled standing contexts [n] [{ n with resolved, shape }] told := by
  subst hseats
  have hsame : ({ n with resolved, shape } : Node).unlinked = n.unlinked := Node.unlinked_with hshape
  refine ⟨by simp [hsame], List.forall_mem_singleton.mpr (.of_parts hjump fun p hp => ?_), ?_⟩
  · rw [← map_region_seats standing] at hp
    obtain ⟨q, hq, rfl⟩ := List.mem_map.mp hp
    exact hparts.jumps q hq
  · rw [accounts_cons, accounts_nil, add_zero, account_eq, own, overlaps, opened?_congr hsame, htold,
      hparts.told]
    rfl

/-- A node that is no name and no jump, with the parts that the binder has bound. -/
theorem Settled.rebuilt {shape : Shape Node} {ps : List (Seat × Node)} {parts : Account}
    (hshape : shape.map Node.unlinked = n.shape.map Node.unlinked) (hnaming : shape.isNaming = false)
    (hjump : shape.jumpCause? = none) (hparts : Seated n.id contexts ps parts)
    (hseats : seats standing shape = ps) (htold : told = overlaps n + parts) :
    Settled standing contexts [n] [{ n with shape }] told := by
  have hnoted : noted standing { n with shape } = 0 := by
    have hfault : fault? standing { n with shape } = none := by
      cases shape <;> first | rfl | contradiction
    rw [noted, complaints_of_fault?_eq_none hfault, hnaming]
    rfl
  refine .of_shape hshape ?_ hparts hseats ?_
  · cases shape <;> trivial
  · rw [hnoted, zero_add, htold]

/-- The same for a node that opens no scope. -/
theorem Settled.unscoped {shape : Shape Node} {ps : List (Seat × Node)} {parts : Account}
    (hopened : opened? n = none) (hshape : shape.map Node.unlinked = n.shape.map Node.unlinked)
    (hnaming : shape.isNaming = false) (hjump : shape.jumpCause? = none)
    (hparts : Seated n.id contexts ps parts) (hseats : seats standing shape = ps) (htold : told = parts) :
    Settled standing contexts [n] [{ n with shape }] told := by
  refine .rebuilt hshape hnaming hjump hparts hseats ?_
  rw [overlaps, hopened, htold]
  exact (zero_add _).symm

end Seats

/-- Binding the node as such, in any contexts and any scope, tells its account. -/
def Settles (n : Node) : Prop :=
  ∀ contexts before, Tells contexts before (before ++ introduced n) (passes n).whole fun n' told =>
    Settled .plain contexts [n] [n'] told

/-- Binding the node as an attribute, in any contexts and any scope, tells its account. -/
def SettlesAttribute (n : Node) : Prop :=
  ∀ contexts before, Tells contexts before (before ++ introduced n) (passes n).asAttribute fun n' told =>
    Settled .attribute contexts [n] [n'] told

namespace Tells
variable {contexts : List Context} {before : List Introduction} {ns : List Node} {x : Option Node}

theorem visit {n : Node} (h : Settles n) :
    Tells contexts before (before ++ introduced n) (Binder.visit (part n)) fun n' told =>
      Settled .plain contexts [n] [n'] told :=
  h contexts before

theorem list {f : Part → BindM Node} {standing : Standing}
    (h : ∀ n ∈ ns, ∀ before, Tells contexts before (before ++ introduced n) (f (part n)) fun n' told =>
      Settled standing contexts [n] [n'] told) :
    Tells contexts before (before ++ introducedBy ns) ((ns.map part).mapM f)
      (Settled standing contexts ns) := by
  induction ns generalizing before with
  | nil =>
    rw [List.map_nil, List.mapM_nil, introducedBy_nil, List.append_nil]
    exact .pure .nil
  | cons n ns ih =>
    rw [List.map_cons, List.mapM_cons, introducedBy_cons, ← List.append_assoc]
    refine bind (h n List.mem_cons_self before) fun n' told hn => ?_
    exact returning (ih fun m hm => h m (List.mem_cons_of_mem n hm)) fun ns' more hns => hn.cons hns

theorem visits (h : ∀ n ∈ ns, Settles n) :
    Tells contexts before (before ++ introducedBy ns) ((ns.map part).mapM Binder.visit)
      (Settled .plain contexts ns) :=
  list fun n hn => h n hn contexts

theorem attributes (h : ∀ n ∈ ns, SettlesAttribute n) :
    Tells contexts before (before ++ introducedBy ns) ((ns.map part).mapM visitAttribute)
      (Settled .attribute contexts ns) :=
  list fun n hn => h n hn contexts

theorem option (h : ∀ n ∈ x, Settles n) :
    Tells contexts before (before ++ introducedBy x.toList) ((x.map part).mapM Binder.visit) fun x' told =>
      Settled .plain contexts x.toList x'.toList told := by
  cases x with
  | none =>
    rw [Option.toList_none, introducedBy_nil, List.append_nil]
    exact pure .nil
  | some n =>
    rw [Option.toList_some, introducedBy_cons, introducedBy_nil, List.append_nil]
    exact returning (visit (h n rfl)) fun n' told hn => hn

theorem hoistAll (ns : List Node) :
    Tells contexts before (before ++ ns.filterMap ahead?)
      ((ns.map part).forM fun part => Binder.hoist part.1) fun _ told => told = 0 := by
  induction ns generalizing before with
  | nil =>
    rw [List.filterMap_nil, List.append_nil]
    exact .pure rfl
  | cons n ns ih =>
    have split : (n :: ns).filterMap ahead? = (ahead? n).toList ++ ns.filterMap ahead? := by
      rw [List.filterMap_cons]
      cases ahead? n <;> rfl
    rw [split, ← List.append_assoc]
    refine bind (hoist n) fun _ told htold => ih.mono fun _ more hmore => ?_
    rw [htold, hmore, add_zero]

theorem visitScope (h : ∀ n ∈ ns, Settles n) :
    Tells contexts before (before ++ introducedAhead ns) (Binder.visitScope (ns.map part))
      (Settled .plain contexts ns) := by
  rw [introducedAhead, ← List.append_assoc]
  refine bind (hoistAll ns) fun _ told htold => (visits h).mono fun ns' more hns => ?_
  rw [htold, zero_add]
  exact hns

end Tells

end Binder

end BraceLang
