import BraceLang.Binding
import BraceLang.Proofs.Binding.Lexical
import BraceLang.Proofs.Scope.OpenScopes
import Mathlib.Data.List.Forall2

/-! What the steps of the binder do to the open scopes. The stack of scopes shows, frame by frame, the
    first declaration of every name, in order (`Shows`); a step is described by the scopes before and after it and
    by what it gives (`Walks`), and such descriptions compose along a walk. -/

namespace BraceLang

namespace Lexical

/-! ### Lookup -/

/-- The declaration that made the first declaration of `name` in `scope`. -/
def first? (scope : List Declaration) (name : String) : Option NodeId :=
  (scope.find? (·.name == name)).map (·.decl)

theorem first?_eq_some_iff {scope : List Declaration} {name : String} {decl : NodeId} :
    first? scope name = some decl ↔ First name decl scope := by
  constructor
  · intro h
    obtain ⟨d, hd, rfl⟩ := Option.map_eq_some_iff.mp h
    obtain ⟨hname, earlier, later, rfl, hearlier⟩ := List.find?_eq_some_iff_append.mp hd
    obtain rfl := beq_iff_eq.mp hname
    exact ⟨earlier, later, rfl, fun e he => by simpa using hearlier e he⟩
  · rintro ⟨earlier, later, rfl, hearlier⟩
    refine Option.map_eq_some_iff.mpr ⟨_, List.find?_eq_some_iff_append.mpr ⟨?_, _, _, rfl, ?_⟩, rfl⟩
    · simp
    · intro e he
      simpa using hearlier e he

theorem first?_eq_none_iff {scope : List Declaration} {name : String} :
    first? scope name = none ↔ ∀ d ∈ scope, d.name ≠ name := by
  simp [first?]

theorem first?_append (scope ds : List Declaration) (name : String) :
    first? (scope ++ ds) name = (first? scope name).or (first? ds name) := by
  unfold first?
  rw [List.find?_append]
  cases scope.find? (·.name == name) <;> rfl

/-- The walk outward, as a search. -/
theorem denotes_iff {name : String} {decl : NodeId} {scopes : Scopes} :
    Denotes name decl scopes ↔ scopes.findSome? (first? · name) = some decl := by
  induction scopes with
  | nil =>
    constructor <;> intro h <;> cases h
  | cons scope outer ih =>
    rw [List.findSome?_cons]
    constructor
    · intro h
      cases h with
      | here hfirst => rw [first?_eq_some_iff.mpr hfirst]
      | outward habsent hrest =>
        rw [first?_eq_none_iff.mpr habsent]
        exact ih.mp hrest
    · intro h
      split at h
      · rename_i d hd
        cases h
        exact .here (first?_eq_some_iff.mp hd)
      · rename_i hnone
        exact .outward (first?_eq_none_iff.mp hnone) (ih.mpr h)

@[simp] theorem Scopes.extend_nil (scopes : Scopes) : scopes.extend [] = scopes := by
  cases scopes <;> simp [extend]

theorem Scopes.extend_extend (scopes : Scopes) (as bs : List Declaration) :
    (scopes.extend as).extend bs = scopes.extend (as ++ bs) := by
  cases scopes <;> simp [extend]

@[simp] theorem Scopes.after_nil (scopes : Scopes) : scopes.after [] = scopes := extend_nil scopes

theorem Scopes.after_append (scopes : Scopes) (as bs : List Node) :
    scopes.after (as ++ bs) = (scopes.after as).after bs := by
  simp [after, extend_extend]

theorem Scopes.after_cons (scopes : Scopes) (n : Node) (ns : List Node) :
    scopes.after (n :: ns) = (scopes.after [n]).after ns :=
  after_append scopes [n] ns

theorem Scopes.after_singleton (scopes : Scopes) (n : Node) :
    scopes.after [n] = scopes.extend (declares n) := by
  simp [after]

/-! ### The stack shows the scopes -/

/-- The names that are declared in a scope, earliest first and each only once. -/
def namesOf (scope : List Declaration) : List String := (scope.map (·.name)).eraseDups

theorem namesOf_concat (scope : List Declaration) (d : Declaration) :
    namesOf (scope ++ [d]) = namesOf scope ++ if ∃ e ∈ scope, e.name = d.name then [] else [d.name] := by
  rw [namesOf, List.map_append, List.map_singleton, List.eraseDups_append, namesOf]
  congr 1
  split <;> simp_all [List.removeAll, List.eraseDups_cons]

/-- A frame has the first declaration of every name of a scope, in their order, and no other. -/
structure ShowsScope (frame : Scope) (scope : List Declaration) : Prop where
  get? : ∀ name, (frame.get? name).map (·.decl) = first? scope name
  names : frame.names = namesOf scope

namespace ShowsScope
variable {frame : Scope} {scope : List Declaration} {name : String} {decl : NodeId}

theorem empty : ShowsScope .empty [] where
  get? name := by
    rw [Scope.get?_empty]
    rfl
  names := rfl

/-- A name that the frame has is known to the scope, so a further declaration is not the first. -/
theorem declared (h : ShowsScope frame scope) {first : Binding} (hname : frame.get? name = some first) :
    ShowsScope frame (scope ++ [⟨name, decl⟩]) := by
  have known : first? scope name = some first.decl := by
    rw [← h.get?, hname]
    rfl
  refine ⟨fun x => ?_, ?_⟩
  · rw [h.get? x, first?_append]
    by_cases hx : x = name
    · subst hx
      rw [known]
      rfl
    · have : first? [⟨name, decl⟩] x = none := first?_eq_none_iff.mpr (by simpa using Ne.symm hx)
      rw [this, Option.or_none]
  · obtain ⟨earlier, later, hscope, -⟩ := first?_eq_some_iff.mp known
    have mem : ⟨name, first.decl⟩ ∈ scope := hscope ▸ List.mem_append_right _ List.mem_cons_self
    rw [h.names, namesOf_concat, if_pos ⟨_, mem, rfl⟩, List.append_nil]

theorem insert (h : ShowsScope frame scope) (hname : frame.get? name = none) (range : Option Range) :
    ShowsScope (frame.insert name ⟨decl, range⟩) (scope ++ [⟨name, decl⟩]) := by
  have new : first? scope name = none := by
    rw [← h.get?, hname]
    rfl
  refine ⟨fun x => ?_, ?_⟩
  · rw [Scope.get?_insert hname, first?_append, ← h.get? x]
    by_cases hx : x = name
    · subst hx
      simp [hname, first?]
    · simp [hx, first?, Ne.symm hx]
  · have inserted : (frame.insert name ⟨decl, range⟩).names = frame.names ++ [name] := by
      simp [Scope.insert, Scope.names]
    rw [inserted, h.names, namesOf_concat, if_neg]
    rintro ⟨d, hd, hd'⟩
    exact first?_eq_none_iff.mp new d hd hd'

end ShowsScope

/-- The open frames show the open scopes. -/
def Shows (stack : ScopeStack) (scopes : Scopes) : Prop :=
  List.Forall₂ ShowsScope stack.openScopes scopes

namespace Shows
variable {stack : ScopeStack} {scopes : Scopes}

theorem empty : Shows .empty [] := .nil

theorem push (h : Shows stack scopes) : Shows stack.push ([] :: scopes) := by
  unfold Shows
  rw [ScopeStack.openScopes_push]
  exact .cons .empty h

theorem pop {scope : List Declaration} (h : Shows stack (scope :: scopes)) :
    Shows stack.pop scopes := by
  unfold Shows at h ⊢
  rw [ScopeStack.openScopes_pop]
  generalize stack.openScopes = frames at h
  cases h with
  | cons _ rest => exact rest

theorem lookup? (h : Shows stack scopes) (name : String) :
    (stack.lookup? name).map (·.decl) = scopes.findSome? (first? · name) := by
  unfold Shows at h
  unfold ScopeStack.lookup?
  generalize stack.openScopes = frames at h
  induction h with
  | nil => rfl
  | cons hscope _ ih =>
    rw [List.findSome?_cons, List.findSome?_cons, ← hscope.get? name]
    split
    · rename_i b hb
      simp [hb]
    · rename_i hb
      simp [hb, ih]

theorem visibleNames (h : Shows stack scopes) : stack.visibleNames = scopes.flatMap namesOf := by
  unfold Shows at h
  unfold ScopeStack.visibleNames
  generalize stack.openScopes = frames at h
  induction h with
  | nil => rfl
  | cons hscope _ ih => rw [List.flatMap_cons, List.flatMap_cons, hscope.names, ih]

end Shows

end Lexical

namespace Binder
open Lexical

/-! ### Steps -/

/-- From a stack that shows `before`, the step gives what `post` says and leaves a stack that shows
    `after`. -/
def Walks {α : Type} (m : BindM α) (before after : Scopes) (post : α → Prop) : Prop :=
  ∀ s : State, Shows s.scopes before → post (m s).1 ∧ Shows (m s).2.scopes after

theorem get_bind {α : Type} (f : State → BindM α) (s : State) :
    ((get : BindM State) >>= f) s = f s s := rfl

namespace Walks
variable {α β : Type} {before between after : Scopes}

theorem pure {a : α} {post : α → Prop} (h : post a) : Walks (pure a) before before post :=
  fun _ hs => ⟨h, hs⟩

theorem bind {m : BindM α} {f : α → BindM β} {mid : α → Prop} {post : β → Prop}
    (hm : Walks m before between mid) (hf : ∀ a, mid a → Walks (f a) between after post) :
    Walks (m >>= f) before after post := by
  intro s hs
  obtain ⟨ha, ht⟩ := hm s hs
  exact hf _ ha _ ht

theorem mono {m : BindM α} {post weaker : α → Prop} (hm : Walks m before after post)
    (h : ∀ a, post a → weaker a) : Walks m before after weaker :=
  fun s hs => ⟨h _ (hm s hs).1, (hm s hs).2⟩

/-- A step that leaves the stack alone. -/
theorem of_scopes {m : BindM α} {post : α → Prop} (hs : ∀ s, (m s).2.scopes = s.scopes)
    (hpost : ∀ s, Shows s.scopes before → post (m s).1) : Walks m before before post :=
  fun s h => ⟨hpost s h, (hs s).symm ▸ h⟩

theorem inScope {m : BindM α} {scope : List Declaration} {post : α → Prop}
    (h : Walks m ([] :: before) (scope :: before) post) :
    Walks (Binder.inScope m) before before post := by
  intro s hs
  obtain ⟨ha, ht⟩ := h { s with scopes := s.scopes.push } hs.push
  exact ⟨ha, ht.pop⟩

theorem inContext {m : BindM α} {context : Context} {post : α → Prop}
    (h : Walks m before after post) : Walks (Binder.inContext context m) before after post := by
  intro s hs
  exact h { s with contexts := context :: s.contexts } hs

theorem declare (name : Ident) (decl : NodeId) :
    Walks (Binder.declare name decl) before (before.extend [⟨name.text, decl⟩]) fun _ => True := by
  intro s hs
  refine ⟨trivial, ?_⟩
  rw [Binder.declare, get_bind]
  generalize hopen : s.scopes.openScopes = frames
  have hs' := hs
  unfold Shows at hs'
  rw [hopen] at hs'
  cases hs' with
  | nil =>
    rw [ScopeStack.define_nil hopen]
    exact hs
  | @cons frame scope outer scopes hframe houter =>
    cases hname : frame.get? name.text with
    | some first =>
      rw [ScopeStack.define_declared hopen hname]
      show Shows s.scopes ((scope ++ _) :: scopes)
      unfold Shows
      rw [hopen]
      exact .cons (hframe.declared hname) houter
    | none =>
      obtain ⟨t, ht, htopen⟩ := ScopeStack.define_new hopen hname ⟨decl, some name.range⟩
      rw [ht]
      show Shows t ((scope ++ _) :: scopes)
      unfold Shows
      rw [htopen]
      exact .cons (hframe.insert hname _) houter

theorem declareAll (names : List Ident) (decl : NodeId) :
    Walks (names.forM (Binder.declare · decl)) before
      (before.extend (names.map fun name => ⟨name.text, decl⟩)) fun _ => True := by
  induction names generalizing before with
  | nil =>
    rw [List.map_nil, Scopes.extend_nil]
    exact .pure trivial
  | cons name names ih =>
    have h : Walks ((name :: names).forM (Binder.declare · decl)) before _ fun _ => True :=
      bind (declare name decl) fun _ _ => ih
    rw [Scopes.extend_extend] at h
    exact h

theorem hoist (n : Node) :
    Walks (Binder.hoist n) before (before.extend (hoisted? n).toList) fun _ => True := by
  obtain ⟨id, range, resolved, shape⟩ := n
  cases shape
  case func | struct | enum | union | typeAlias => exact declare _ _
  all_goals
    rw [hoisted?, Option.toList_none, Scopes.extend_nil]
    exact fun s hs => ⟨trivial, hs⟩

theorem resolve (name : String) (range : Range) :
    Walks (Binder.resolve name range) before before fun resolved =>
      ∀ decl, resolved = some decl ↔ Denotes name decl before := by
  have given (s : State) :
      (Binder.resolve name range s).1 = (s.scopes.lookup? name).map (·.decl) := by
    rw [Binder.resolve, get_bind]
    cases s.scopes.lookup? name <;> rfl
  have kept (s : State) : (Binder.resolve name range s).2.scopes = s.scopes := by
    rw [Binder.resolve, get_bind]
    cases s.scopes.lookup? name <;> rfl
  refine of_scopes kept fun s hs decl => ?_
  rw [given s, hs.lookup?, denotes_iff]

theorem jump (target : List Context → Option NodeId) (cause : BindCause) (range : Range) :
    Walks (Binder.jump target cause range) before before fun _ => True := by
  refine of_scopes (fun s => ?_) fun _ _ => trivial
  rw [Binder.jump, get_bind]
  cases target s.contexts <;> rfl

end Walks

end Binder

end BraceLang
