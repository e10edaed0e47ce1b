import BraceLang.Proofs.Binding.Relinks
import BraceLang.Proofs.Scope.Refinement

/-! Two runs of the binder side by side. Steps in concord, from states that are alike, give the same, leave
    states that are alike again, and add the same to all counts and to the log (`Concord`). Neither the log
    nor the counts before a step make states unlike; what else makes no difference is left open
    (`Likeness`): some rules hold whatever is told about declarations, others whatever their order. -/

namespace BraceLang

namespace ScopeStack

/-- A declaration opens and closes nothing. -/
theorem define_history {s t : ScopeStack} {name : String} {b : Binding} (h : s.define name b = .ok t) :
    t.opened = s.opened ∧ t.closed = s.closed ∧ t.maxDepth = s.maxDepth := by
  unfold define at h
  split at h
  · cases h
    exact ⟨rfl, rfl, rfl⟩
  · split at h
    · cases h
      exact ⟨rfl, rfl, rfl⟩
    · split at h <;> cases h
      exact ⟨rfl, rfl, rfl⟩

end ScopeStack

/-- What is told about a cause at a range. -/
def BindCause.diagnostic (cause : BindCause) (range : Range) : Diagnostic :=
  (BindError.mk cause (some range)).toDiagnostic

namespace Binder
open Lexical

variable {α β γ : Type}

/-- What makes no difference to the binder: how a frame may differ, as long as names stand for the same
    nodes, and what is not seen of a diagnostic. -/
structure Likeness (γ : Type) where
  Frames : Scope → Scope → Prop
  view : Diagnostic → γ
  empty : Frames .empty .empty
  insert {a b : Scope} {name : String} (x : Binding) (h : Frames a b) (ha : a.get? name = none)
    (hb : b.get? name = none) : Frames (a.insert name x) (b.insert name x)
  decl {a b : Scope} (name : String) (h : Frames a b) :
    (a.get? name).map (·.decl) = (b.get? name).map (·.decl)
  redefinition {a b : Scope} {name : String} {x y : Binding} (range : Range) (h : Frames a b)
    (hx : a.get? name = some x) (hy : b.get? name = some y) :
    view ((BindCause.redefinition name x.range).diagnostic range) =
      view ((BindCause.redefinition name y.range).diagnostic range)
  undefined {as bs : List Scope} (name : String) (range : Range) (h : List.Forall₂ Frames as bs) :
    view ((BindCause.undefined name (Suggestion.question? name (as.flatMap Scope.names))).diagnostic range) =
      view ((BindCause.undefined name (Suggestion.question? name (bs.flatMap Scope.names))).diagnostic range)

/-- The binder is inside the same contexts, and in scopes that differ in nothing that matters. -/
structure Likeness.Alike (l : Likeness γ) (s t : State) : Prop where
  scopes : List.Forall₂ l.Frames s.scopes.openScopes t.scopes.openScopes
  contexts : s.contexts = t.contexts

namespace Likeness.Alike
variable {l : Likeness γ} {s t : State}

theorem depth (h : l.Alike s t) : s.scopes.depth = t.scopes.depth := by
  rw [← ScopeStack.length_openScopes, ← ScopeStack.length_openScopes, h.scopes.length_eq]

theorem lookup? (h : l.Alike s t) (name : String) :
    (s.scopes.lookup? name).map (·.decl) = (t.scopes.lookup? name).map (·.decl) := by
  have hscopes := h.scopes
  unfold ScopeStack.lookup?
  generalize s.scopes.openScopes = as at hscopes
  generalize t.scopes.openScopes = bs at hscopes
  induction hscopes with
  | nil => rfl
  | @cons a b as bs hframes _ ih =>
    have hdecl := l.decl name hframes
    rw [List.findSome?_cons, List.findSome?_cons]
    cases ha : a.get? name <;> cases hb : b.get? name <;> rw [ha, hb] at hdecl
    · exact ih
    · cases hdecl
    · cases hdecl
    · exact hdecl

theorem undefined (h : l.Alike s t) (name : String) (range : Range) :
    l.view ((BindCause.undefined name (Suggestion.question? name s.scopes.visibleNames)).diagnostic range) =
      l.view ((BindCause.undefined name (Suggestion.question? name t.scopes.visibleNames)).diagnostic range) :=
  l.undefined name range h.scopes

end Likeness.Alike

/-! ### What a step adds -/

/-- What a step adds to the counts and, as far as it is seen, to the log. -/
structure Cost (γ : Type) where
  opened : Nat
  closed : Nat
  /-- The greatest depth that is reached by opening a scope. -/
  deepest : Nat
  resolved : Nat
  told : List γ

namespace Cost

/-- The cost of a step that opens no scope. -/
def flat (resolved : Nat) (told : List γ) : Cost γ := ⟨0, 0, 0, resolved, told⟩

def nothing : Cost γ := flat 0 []

def link : Cost γ := flat 1 []

def message (x : γ) : Cost γ := flat 0 [x]

/-- One cost after another. -/
def plus (c d : Cost γ) : Cost γ :=
  ⟨c.opened + d.opened, c.closed + d.closed, max c.deepest d.deepest, c.resolved + d.resolved,
    c.told ++ d.told⟩

/-- The same in a scope that is opened at this depth. -/
def inScope (depth : Nat) (c : Cost γ) : Cost γ :=
  { c with opened := c.opened + 1, closed := c.closed + 1, deepest := max (depth + 1) c.deepest }

end Cost

/-- From `s` to `t` this was added. -/
structure Spends (view : Diagnostic → γ) (s : State) (c : Cost γ) (t : State) : Prop where
  log : ∃ new, t.log = s.log.append new ∧ new.map view = c.told
  errors : t.errors = s.errors + c.told.length
  resolved : t.resolved = s.resolved + c.resolved
  opened : t.scopes.opened = s.scopes.opened + c.opened
  closed : t.scopes.closed = s.scopes.closed + c.closed
  maxDepth : t.scopes.maxDepth = max s.scopes.maxDepth c.deepest
  frames : t.scopes.framesAllocated = max s.scopes.framesAllocated c.deepest

namespace Spends
variable {view : Diagnostic → γ} {s t u : State} {c d : Cost γ}

/-- A step that leaves the counts of the scopes as they are. -/
theorem flat {told : List γ} {resolved : Nat} (hlog : ∃ new, t.log = s.log.append new ∧ new.map view = told)
    (herrors : t.errors = s.errors + told.length) (hresolved : t.resolved = s.resolved + resolved)
    (hscopes : t.scopes.opened = s.scopes.opened ∧ t.scopes.closed = s.scopes.closed ∧
      t.scopes.maxDepth = s.scopes.maxDepth)
    (hframes : t.scopes.framesAllocated = s.scopes.framesAllocated) : Spends view s (.flat resolved told) t :=
  ⟨hlog, herrors, hresolved, hscopes.1, hscopes.2.1, hscopes.2.2.trans (Nat.max_zero _).symm,
    hframes.trans (Nat.max_zero _).symm⟩

theorem nothing (s : State) : Spends view s .nothing s := .flat ⟨[], rfl, rfl⟩ rfl rfl ⟨rfl, rfl, rfl⟩ rfl

theorem link (s : State) : Spends view s .link { s with resolved := s.resolved + 1 } :=
  .flat ⟨[], rfl, rfl⟩ rfl rfl ⟨rfl, rfl, rfl⟩ rfl

theorem message (cause : BindCause) (range : Range) (s : State) :
    Spends view s (.message (view (cause.diagnostic range))) (report ⟨cause, some range⟩ s).2 :=
  .flat ⟨[cause.diagnostic range], rfl, rfl⟩ rfl rfl ⟨rfl, rfl, rfl⟩ rfl

theorem trans (h : Spends view s c t) (h' : Spends view t d u) : Spends view s (c.plus d) u where
  log := by
    obtain ⟨first, hfirst, hc⟩ := h.log
    obtain ⟨second, hsecond, hd⟩ := h'.log
    refine ⟨first ++ second, ?_, ?_⟩
    · rw [hsecond, hfirst, Log.append_append]
    · rw [List.map_append, hc, hd]
      rfl
  errors := by rw [h'.errors, h.errors, Nat.add_assoc, ← List.length_append]; rfl
  resolved := by rw [h'.resolved, h.resolved, Nat.add_assoc]; rfl
  opened := by rw [h'.opened, h.opened, Nat.add_assoc]; rfl
  closed := by rw [h'.closed, h.closed, Nat.add_assoc]; rfl
  maxDepth := by rw [h'.maxDepth, h.maxDepth, Nat.max_assoc]; rfl
  frames := by rw [h'.frames, h.frames, Nat.max_assoc]; rfl

/-- What is added in a scope of its own. -/
theorem inScope (h : Spends view { s with scopes := s.scopes.push } c t) :
    Spends view s (c.inScope s.scopes.depth) { t with scopes := t.scopes.pop } where
  log := h.log
  errors := h.errors
  resolved := h.resolved
  opened := by
    show t.scopes.opened = s.scopes.opened + (c.opened + 1)
    rw [h.opened]
    exact Nat.add_right_comm _ 1 _
  closed := by
    show t.scopes.closed + 1 = s.scopes.closed + (c.closed + 1)
    rw [h.closed]
    rfl
  maxDepth := h.maxDepth.trans (Nat.max_assoc _ _ _)
  frames := by
    show t.scopes.framesAllocated = max _ (max _ _)
    rw [h.frames, ScopeStack.framesAllocated_push, Nat.max_assoc]
    rfl

end Spends

/-! ### Whole runs -/

/-- The state that a program is bound from. -/
def start (log : Log) : State := { log, scopes := .empty, contexts := [], resolved := 0, errors := 0 }

/-- The counts after a program was bound. -/
def State.summary (s : State) : BindSummary where
  scopesOpened := s.scopes.opened
  scopesClosed := s.scopes.closed
  framesAllocated := s.scopes.framesAllocated
  maxDepth := s.scopes.maxDepth
  resolved := s.resolved
  errors := s.errors

theorem bind_eq (p : Program) (log : Log) :
    bind p log = ({ p with items := (inScope (bindItems p.items) (start log)).1 },
      (inScope (bindItems p.items) (start log)).2.log,
      (inScope (bindItems p.items) (start log)).2.summary) := rfl

def Cost.summary (c : Cost γ) : BindSummary where
  scopesOpened := c.opened
  scopesClosed := c.closed
  framesAllocated := c.deepest
  maxDepth := c.deepest
  resolved := c.resolved
  errors := c.told.length

/-- The counts of a run are what it added to none. -/
theorem Spends.summary {view : Diagnostic → γ} {log : Log} {c : Cost γ} {t : State}
    (h : Spends view (start log) c t) : t.summary = c.summary := by
  rw [State.summary, h.opened, h.closed, h.frames, h.maxDepth, h.resolved, h.errors]
  simp [Cost.summary, start, ScopeStack.empty, ScopeStack.framesAllocated]

/-! ### Steps in concord -/

/-- A step that was given a state like that of the other run ends as the other did, and adds `c`. -/
structure Ends (l : Likeness γ) (other : α × State) (c : Cost γ) (s : State) (outcome : α × State) : Prop where
  result : outcome.1 = other.1
  alike : l.Alike other.2 outcome.2
  spends : Spends l.view s c outcome.2

/-- From all states that are like some state, both steps end in the same way and add the same. -/
def Concord (l : Likeness γ) (m m' : BindM α) : Prop :=
  ∀ s, ∃ c, ∀ t, l.Alike s t → Ends l (m s) c t (m t) ∧ Ends l (m s) c t (m' t)

namespace Concord
variable {l : Likeness γ}

/-- A step that is the same in both runs. -/
theorem same {m : BindM α} (h : ∀ s, ∃ c, ∀ t, l.Alike s t → Ends l (m s) c t (m t)) : Concord l m m := by
  intro s
  obtain ⟨c, hends⟩ := h s
  exact ⟨c, fun t ht => ⟨hends t ht, hends t ht⟩⟩

theorem pure (a : α) : Concord l (pure a) (pure a) :=
  same fun _ => ⟨.nothing, fun t ht => ⟨rfl, ht, .nothing t⟩⟩

theorem bind {m m' : BindM α} {f f' : α → BindM β} (hm : Concord l m m') (hf : ∀ a, Concord l (f a) (f' a)) :
    Concord l (m >>= f) (m' >>= f') := by
  intro s
  obtain ⟨c, hc⟩ := hm s
  obtain ⟨d, hd⟩ := hf (m s).1 (m s).2
  -- What the first step gave is the same in all runs, so the second is the one that `d` is the cost of.
  have together {n : BindM α} {g : α → BindM β} {t : State} (hn : Ends l (m s) c t (n t))
      (hg : Ends l (f (m s).1 (m s).2) d (n t).2 (g (m s).1 (n t).2)) :
      Ends l ((m >>= f) s) (c.plus d) t ((n >>= g) t) := by
    show Ends l (f (m s).1 (m s).2) (c.plus d) t (g (n t).1 (n t).2)
    rw [hn.result]
    exact ⟨hg.result, hg.alike, hn.spends.trans hg.spends⟩
  refine ⟨c.plus d, fun t ht => ⟨together (hc t ht).1 ?_, together (hc t ht).2 ?_⟩⟩
  · exact (hd _ (hc t ht).1.alike).1
  · exact (hd _ (hc t ht).2.alike).2

theorem inContext {m m' : BindM α} {context : Context} (h : Concord l m m') :
    Concord l (Binder.inContext context m) (Binder.inContext context m') := by
  intro s
  obtain ⟨c, hc⟩ := h { s with contexts := context :: s.contexts }
  have leave {n : BindM α} {t : State}
      (hn : Ends l (m { s with contexts := context :: s.contexts }) c { t with contexts := context :: t.contexts }
        (n { t with contexts := context :: t.contexts })) :
      Ends l (Binder.inContext context m s) c t (Binder.inContext context n t) :=
    ⟨hn.result, ⟨hn.alike.scopes, congrArg List.tail hn.alike.contexts⟩,
      ⟨hn.spends.log, hn.spends.errors, hn.spends.resolved, hn.spends.opened, hn.spends.closed,
        hn.spends.maxDepth, hn.spends.frames⟩⟩
  refine ⟨c, fun t ht => ?_⟩
  have hinside := hc { t with contexts := context :: t.contexts } ⟨ht.scopes, congrArg (context :: ·) ht.contexts⟩
  exact ⟨leave hinside.1, leave hinside.2⟩

theorem inScope {m m' : BindM α} (h : Concord l m m') : Concord l (Binder.inScope m) (Binder.inScope m') := by
  intro s
  obtain ⟨c, hc⟩ := h { s with scopes := s.scopes.push }
  have leave {n : BindM α} {t : State} (ht : l.Alike s t)
      (hn : Ends l (m { s with scopes := s.scopes.push }) c { t with scopes := t.scopes.push }
        (n { t with scopes := t.scopes.push })) :
      Ends l (Binder.inScope m s) (c.inScope s.scopes.depth) t (Binder.inScope n t) := by
    refine ⟨hn.result, ⟨?_, hn.alike.contexts⟩, ?_⟩
    · show List.Forall₂ _ (m _).2.scopes.pop.openScopes (n _).2.scopes.pop.openScopes
      rw [ScopeStack.openScopes_pop, ScopeStack.openScopes_pop]
      have hscopes := hn.alike.scopes
      revert hscopes
      generalize (m _).2.scopes.openScopes = as
      generalize (n _).2.scopes.openScopes = bs
      rintro (_ | ⟨-, outer⟩)
      · exact .nil
      · exact outer
    · rw [ht.depth]
      exact hn.spends.inScope
  refine ⟨c.inScope s.scopes.depth, fun t ht => ?_⟩
  have hopened : l.Alike { s with scopes := s.scopes.push } { t with scopes := t.scopes.push } := by
    refine ⟨?_, ht.contexts⟩
    rw [ScopeStack.openScopes_push, ScopeStack.openScopes_push]
    exact .cons l.empty ht.scopes
  exact ⟨leave ht (hc _ hopened).1, leave ht (hc _ hopened).2⟩

theorem inScopeIf {m m' : BindM α} {own : Bool} (h : Concord l m m') :
    Concord l (Binder.inScopeIf own m) (Binder.inScopeIf own m') := by
  cases own
  · exact h
  · exact h.inScope

theorem jump (target : List Context → Option NodeId) (cause : BindCause) (range : Range) :
    Concord l (Binder.jump target cause range) (Binder.jump target cause range) := by
  refine same fun s => ?_
  rw [Binder.jump, get_bind]
  cases hs : target s.contexts with
  | some id =>
    refine ⟨.nothing, fun t ht => ?_⟩
    rw [get_bind, ← ht.contexts, hs]
    exact ⟨rfl, ht, .nothing t⟩
  | none =>
    refine ⟨.message (l.view (cause.diagnostic range)), fun t ht => ?_⟩
    rw [get_bind, ← ht.contexts, hs]
    exact ⟨rfl, ⟨ht.scopes, ht.contexts⟩, .message _ _ t⟩

theorem resolve (name : String) (range : Range) :
    Concord l (Binder.resolve name range) (Binder.resolve name range) := by
  refine same fun s => ?_
  rw [Binder.resolve, get_bind]
  cases hs : s.scopes.lookup? name with
  | some b =>
    refine ⟨.link, fun t ht => ?_⟩
    have hdecl := ht.lookup? name
    rw [hs] at hdecl
    obtain ⟨b', hb, hsame⟩ := Option.map_eq_some_iff.mp hdecl.symm
    rw [get_bind, hb]
    exact ⟨congrArg some hsame, ⟨ht.scopes, ht.contexts⟩, .link t⟩
  | none =>
    refine ⟨.message (l.view (BindCause.diagnostic
      (.undefined name (Suggestion.question? name s.scopes.visibleNames)) range)), fun t ht => ?_⟩
    have hdecl := ht.lookup? name
    rw [hs] at hdecl
    rw [get_bind, Option.map_eq_none_iff.mp hdecl.symm]
    refine ⟨rfl, ⟨ht.scopes, ht.contexts⟩, ?_⟩
    rw [ht.undefined name range]
    exact .message _ _ t

theorem declare (name : Ident) (decl : NodeId) :
    Concord l (Binder.declare name decl) (Binder.declare name decl) := by
  refine same fun s => ?_
  rw [Binder.declare, get_bind]
  generalize hopen : s.scopes.openScopes = frames
  cases frames with
  | nil =>
    refine ⟨.nothing, fun t ht => ?_⟩
    have hscopes := ht.scopes
    rw [hopen] at hscopes
    rw [get_bind, ScopeStack.define_nil hopen, ScopeStack.define_nil (List.forall₂_nil_left_iff.mp hscopes)]
    exact ⟨rfl, ht, .nothing t⟩
  | cons frame outer =>
    cases hname : frame.get? name.text with
    | some first =>
      refine ⟨.message (l.view ((BindCause.redefinition name.text first.range).diagnostic name.range)),
        fun t ht => ?_⟩
      have hscopes := ht.scopes
      rw [hopen] at hscopes
      obtain ⟨frame', outer', hframe, -, hopen'⟩ := List.forall₂_cons_left_iff.mp hscopes
      have hdecl := l.decl name.text hframe
      rw [hname] at hdecl
      obtain ⟨first', hname', -⟩ := Option.map_eq_some_iff.mp hdecl.symm
      rw [get_bind, ScopeStack.define_declared hopen hname, ScopeStack.define_declared hopen' hname']
      refine ⟨rfl, ⟨ht.scopes, ht.contexts⟩, ?_⟩
      rw [l.redefinition name.range hframe hname hname']
      exact .message _ _ t
    | none =>
      refine ⟨.nothing, fun t ht => ?_⟩
      have hscopes := ht.scopes
      rw [hopen] at hscopes
      obtain ⟨frame', outer', hframe, houter, hopen'⟩ := List.forall₂_cons_left_iff.mp hscopes
      have hdecl := l.decl name.text hframe
      rw [hname] at hdecl
      have hname' := Option.map_eq_none_iff.mp hdecl.symm
      obtain ⟨u, hu, huopen⟩ := ScopeStack.define_new hopen hname ⟨decl, some name.range⟩
      obtain ⟨v, hv, hvopen⟩ := ScopeStack.define_new hopen' hname' ⟨decl, some name.range⟩
      rw [get_bind, hu, hv]
      refine ⟨rfl, ⟨?_, ht.contexts⟩, ?_⟩
      · show List.Forall₂ _ u.openScopes v.openScopes
        rw [huopen, hvopen]
        exact .cons (l.insert _ hframe hname hname') houter
      · exact .flat ⟨[], rfl, rfl⟩ rfl rfl (ScopeStack.define_history hv) (ScopeStack.define_counts hv).2

end Concord

end Binder

end BraceLang
