import BraceLang.Proofs.Scope.OpenScopes
import Mathlib.Data.List.Forall2
import Mathlib.Data.List.Induction
import Mathlib.Order.Bounds.Basic

/-! The stack of scopes against a plain one. The plain stack holds nothing but the scopes that are open,
    each as a list of names with what they stand for, and it remembers the greatest depth so far. Frames
    that wait to be used again, and the table beside the order of names in each frame, make no difference:
    whatever calls came before, the next call gives what it gives on the plain stack. -/

namespace BraceLang

/-- What can be asked of a stack of scopes. -/
inductive ScopeCall where
  | push
  | pop
  | define (name : String) (b : Binding)
  | lookup (name : String)
  | visibleNames
  | depth
  | framesAllocated

/-- What a call gives back. -/
inductive ScopeAnswer where
  | unit
  /-- Nothing if the name was new to the innermost scope, and otherwise its first declaration. -/
  | defined (outcome : Except Binding Unit)
  | found (binding : Option Binding)
  | names (names : List String)
  | count (n : Nat)

/-! ### The two stacks -/

/-- The answer to a call, and the stack after it. -/
def ScopeStack.call (s : ScopeStack) : ScopeCall → ScopeAnswer × ScopeStack
  | .push => (.unit, s.push)
  | .pop => (.unit, s.pop)
  | .define name b =>
    match s.define name b with
    | .ok t => (.defined (.ok ()), t)
    | .error first => (.defined (.error first), s)
  | .lookup name => (.found (s.lookup? name), s)
  | .visibleNames => (.names s.visibleNames, s)
  | .depth => (.count s.depth, s)
  | .framesAllocated => (.count s.framesAllocated, s)

/-- A fresh stack after a sequence of calls. -/
def ScopeStack.after (calls : List ScopeCall) : ScopeStack :=
  calls.foldl (fun s c => (s.call c).2) .empty

/-- The open scopes, innermost first, and how many there have been at once. -/
structure PlainStack where
  scopes : List (List (String × Binding))
  deepest : Nat

namespace PlainStack

def empty : PlainStack := ⟨[], 0⟩

/-- Declares a name in the innermost scope if it is new there. -/
def define (p : PlainStack) (name : String) (b : Binding) : Except Binding PlainStack :=
  match p.scopes with
  | [] => .ok p
  | scope :: outer =>
    match scope.lookup name with
    | some first => .error first
    | none => .ok { p with scopes := (scope ++ [(name, b)]) :: outer }

/-- The answer to a call, and the stack after it. -/
def call (p : PlainStack) : ScopeCall → ScopeAnswer × PlainStack
  | .push => (.unit, ⟨[] :: p.scopes, max p.deepest (p.scopes.length + 1)⟩)
  | .pop => (.unit, { p with scopes := p.scopes.tail })
  | .define name b =>
    match p.define name b with
    | .ok q => (.defined (.ok ()), q)
    | .error first => (.defined (.error first), p)
  | .lookup name => (.found (p.scopes.findSome? (·.lookup name)), p)
  | .visibleNames => (.names (p.scopes.flatMap (·.map (·.1))), p)
  | .depth => (.count p.scopes.length, p)
  | .framesAllocated => (.count p.deepest, p)

/-- The empty stack after a sequence of calls. -/
def after (calls : List ScopeCall) : PlainStack := calls.foldl (fun p c => (p.call c).2) .empty

end PlainStack

/-! ### One scope -/

/-- The table and the order of a frame are in step: they hold the names of the list, each with what it
    first stands for. -/
structure Scope.Lists (frame : Scope) (entries : List (String × Binding)) : Prop where
  names : frame.names = entries.map (·.1)
  get? : ∀ name, frame.get? name = entries.lookup name

namespace Scope.Lists

theorem empty : Scope.empty.Lists [] := ⟨rfl, get?_empty⟩

theorem insert {frame : Scope} {entries : List (String × Binding)} {name : String}
    (h : frame.Lists entries) (hname : frame.get? name = none) (b : Binding) :
    (frame.insert name b).Lists (entries ++ [(name, b)]) where
  names := by
    have hnames : (frame.insert name b).names = frame.names ++ [name] := by simp [Scope.insert, Scope.names]
    rw [hnames, h.names, List.map_append]
    rfl
  get? x := by
    rw [get?_insert hname, h.get?, List.lookup_append]
    congr 1
    by_cases hx : x = name
    · simp [hx]
    · simp [List.lookup_cons, hx, beq_eq_false_iff_ne.mpr hx]

end Scope.Lists

namespace ScopeStack

/-! ### Frames -/

theorem framesAllocated_push (s : ScopeStack) :
    s.push.framesAllocated = max s.framesAllocated s.push.depth := by
  have hd := s.depth_le
  show s.push.frames.size = max s.frames.size (s.depth + 1)
  unfold push
  split
  · simp only [Array.size_setIfInBounds]
    omega
  · simp only [Array.size_push]
    omega

/-- A declaration changes no count. -/
theorem define_counts {s t : ScopeStack} {name : String} {b : Binding} (h : s.define name b = .ok t) :
    t.depth = s.depth ∧ t.framesAllocated = s.framesAllocated := by
  unfold define at h
  split at h
  · cases h
    exact ⟨rfl, rfl⟩
  · split at h
    · cases h
      exact ⟨rfl, rfl⟩
    · split at h
      · cases h
      · cases h
        exact ⟨rfl, Array.size_setIfInBounds ..⟩

/-- A frame is made only when there is none left at the new depth. -/
theorem framesAllocated_call (s : ScopeStack) (c : ScopeCall) :
    (s.call c).2.framesAllocated = max s.framesAllocated (s.call c).2.depth := by
  have hd : s.depth ≤ s.framesAllocated := s.depth_le
  cases c with
  | push => exact s.framesAllocated_push
  | pop =>
    show s.framesAllocated = max s.framesAllocated (s.depth - 1)
    omega
  | define name b =>
    simp only [call]
    split
    · rename_i t ht
      obtain ⟨hdepth, hframes⟩ := define_counts ht
      rw [hdepth, hframes, Nat.max_eq_left hd]
    · exact (Nat.max_eq_left hd).symm
  | lookup | visibleNames | depth | framesAllocated => exact (Nat.max_eq_left hd).symm

/-! ### The two stacks in step -/

/-- A stack does the work of a plain one. -/
structure Refines (s : ScopeStack) (p : PlainStack) : Prop where
  scopes : List.Forall₂ Scope.Lists s.openScopes p.scopes
  frames : s.framesAllocated = p.deepest

namespace Refines
variable {s : ScopeStack} {p : PlainStack}

theorem empty : ScopeStack.empty.Refines .empty := ⟨.nil, rfl⟩

theorem depth (h : s.Refines p) : s.depth = p.scopes.length := by
  rw [← s.length_openScopes, h.scopes.length_eq]

theorem push (h : s.Refines p) : s.push.Refines (p.call .push).2 where
  scopes := by
    rw [openScopes_push]
    exact .cons .empty h.scopes
  frames := by
    show _ = max p.deepest (p.scopes.length + 1)
    rw [framesAllocated_push, h.frames, ← h.depth]
    rfl

theorem pop (h : s.Refines p) : s.pop.Refines (p.call .pop).2 where
  scopes := by
    rw [openScopes_pop]
    show List.Forall₂ _ _ p.scopes.tail
    have hscopes := h.scopes
    generalize s.openScopes = frames at hscopes
    generalize p.scopes = scopes at hscopes
    cases hscopes with
    | nil => exact .nil
    | cons _ outer => exact outer
  frames := h.frames

theorem lookup? (h : s.Refines p) (name : String) :
    s.lookup? name = p.scopes.findSome? (·.lookup name) := by
  have hscopes := h.scopes
  unfold ScopeStack.lookup?
  generalize s.openScopes = frames at hscopes
  generalize p.scopes = scopes at hscopes
  induction hscopes with
  | nil => rfl
  | cons hscope _ ih => rw [List.findSome?_cons, List.findSome?_cons, hscope.get? name, ih]

theorem visibleNames (h : s.Refines p) : s.visibleNames = p.scopes.flatMap (·.map (·.1)) := by
  have hscopes := h.scopes
  unfold ScopeStack.visibleNames
  generalize s.openScopes = frames at hscopes
  generalize p.scopes = scopes at hscopes
  induction hscopes with
  | nil => rfl
  | cons hscope _ ih => rw [List.flatMap_cons, List.flatMap_cons, hscope.names, ih]

/-- A declaration fails on both stacks with the same first declaration, or succeeds on both. -/
theorem define (h : s.Refines p) (name : String) (b : Binding) :
    (∃ first, s.define name b = .error first ∧ p.define name b = .error first) ∨
      ∃ t q, s.define name b = .ok t ∧ p.define name b = .ok q ∧ t.Refines q := by
  obtain ⟨scopes, deepest⟩ := p
  have hscopes := h.scopes
  generalize hopen : s.openScopes = frames at hscopes
  cases hscopes with
  | nil => exact .inr ⟨s, _, define_nil hopen name b, rfl, h⟩
  | @cons frame entries outer rest hframe houter =>
    simp only [PlainStack.define, ← hframe.get? name]
    cases hname : frame.get? name with
    | some first => exact .inl ⟨first, define_declared hopen hname b, rfl⟩
    | none =>
      obtain ⟨t, ht, htopen⟩ := define_new hopen hname b
      refine .inr ⟨t, _, ht, rfl, ?_, ?_⟩
      · rw [htopen]
        exact .cons (hframe.insert hname b) houter
      · exact (define_counts ht).2.trans h.frames

/-- A call gives the same on both stacks and leaves them in step. -/
theorem call (h : s.Refines p) (c : ScopeCall) :
    (s.call c).1 = (p.call c).1 ∧ (s.call c).2.Refines (p.call c).2 := by
  cases c with
  | push => exact ⟨rfl, h.push⟩
  | pop => exact ⟨rfl, h.pop⟩
  | define name b =>
    rcases h.define name b with ⟨first, hs, hp⟩ | ⟨t, q, hs, hp, htq⟩
    · simp only [ScopeStack.call, PlainStack.call, hs, hp]
      exact ⟨trivial, h⟩
    · simp only [ScopeStack.call, PlainStack.call, hs, hp]
      exact ⟨trivial, htq⟩
  | lookup name => exact ⟨congrArg ScopeAnswer.found (h.lookup? name), h⟩
  | visibleNames => exact ⟨congrArg ScopeAnswer.names h.visibleNames, h⟩
  | depth => exact ⟨congrArg ScopeAnswer.count h.depth, h⟩
  | framesAllocated => exact ⟨congrArg ScopeAnswer.count h.frames, h⟩

end Refines

/-! ### Sequences of calls -/

theorem after_concat (calls : List ScopeCall) (c : ScopeCall) :
    after (calls ++ [c]) = ((after calls).call c).2 := by
  simp [after]

theorem after_refines (calls : List ScopeCall) : (after calls).Refines (PlainStack.after calls) := by
  induction calls using List.reverseRecOn with
  | nil => exact .empty
  | append_singleton calls c ih =>
    have hplain : PlainStack.after (calls ++ [c]) = ((PlainStack.after calls).call c).2 := by
      simp [PlainStack.after]
    rw [after_concat, hplain]
    exact (ih.call c).2

theorem isGreatest_framesAllocated (calls : List ScopeCall) :
    IsGreatest {depth | ∃ before, before <+: calls ∧ (after before).depth = depth}
      (after calls).framesAllocated := by
  induction calls using List.reverseRecOn with
  | nil =>
    refine ⟨⟨[], List.nil_prefix, rfl⟩, ?_⟩
    rintro depth ⟨before, hbefore, rfl⟩
    rw [List.prefix_nil.mp hbefore]
    exact Nat.le_refl _
  | append_singleton calls c ih =>
    have hdepths : {depth | ∃ before, before <+: calls ++ [c] ∧ (after before).depth = depth} =
        insert (after (calls ++ [c])).depth
          {depth | ∃ before, before <+: calls ∧ (after before).depth = depth} := by
      ext depth
      simp only [List.prefix_concat_iff, Set.mem_ofPred_eq, Set.mem_insert_iff, or_and_right, exists_or,
        exists_eq_left, eq_comm]
    rw [hdepths, after_concat, framesAllocated_call, max_comm]
    exact ih.insert _

/-- Whatever calls came before on a fresh stack, the next one gives what it gives on the plain stack. In
    particular a scope that has just been opened, in a frame used before or not, shows only what the
    scopes around it show, and there are as many frames as scopes have ever been open at once. -/
theorem calls_refine_plain (calls : List ScopeCall) :
    (∀ c, ((after calls).call c).1 = ((PlainStack.after calls).call c).1) ∧
    (after calls).push.visibleNames = (after calls).visibleNames ∧
    (∀ name, (after calls).push.lookup? name = (after calls).lookup? name) ∧
    IsGreatest {depth | ∃ before, before <+: calls ∧ (after before).depth = depth}
      (after calls).framesAllocated := by
  have h := after_refines calls
  refine ⟨fun c => (h.call c).1, ?_, fun name => ?_, isGreatest_framesAllocated calls⟩
  · rw [h.push.visibleNames, h.visibleNames]
    rfl
  · rw [h.push.lookup?, h.lookup?]
    rfl

end ScopeStack

end BraceLang
