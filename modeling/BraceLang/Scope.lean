import BraceLang.Node
import Std.Data.HashMap

/-! Scopes: which names are declared where. The open scopes form a stack. Its frames are kept when a
    scope is closed and used again for the next scope at the same depth, so there are never more frames
    than the deepest nesting needed. -/

namespace BraceLang

/-- What a declared name stands for. -/
structure Binding where
  /-- The declaring node. -/
  decl : NodeId
  /-- Where the name was declared, if that is known. -/
  range : Option Range
deriving DecidableEq

/-- The names declared in one scope. -/
structure Scope where
  /-- What each of them stands for. -/
  bindings : Std.HashMap String Binding
  /-- The names, earliest first. -/
  order : Array String

namespace Scope

/-- The scope without names. -/
def empty : Scope := ⟨∅, #[]⟩

/-- What a name stands for in this scope. -/
def get? (s : Scope) (name : String) : Option Binding := s.bindings[name]?

/-- The declared names, earliest first. -/
def names (s : Scope) : List String := s.order.toList

/-- Adds a name. -/
def insert (s : Scope) (name : String) (b : Binding) : Scope :=
  ⟨s.bindings.insert name b, s.order.push name⟩

end Scope

/-- The open scopes, and frames of closed ones that can be used again. -/
structure ScopeStack where
  /-- The frames made so far, outermost first. The first `depth` of them are open. -/
  frames : Array Scope
  depth : Nat
  /-- The number of scopes opened so far. -/
  opened : Nat
  /-- The number of scopes closed so far. -/
  closed : Nat
  /-- The greatest depth so far. -/
  maxDepth : Nat
  depth_le : depth ≤ frames.size

namespace ScopeStack

/-- The stack with no scope open. -/
def empty : ScopeStack := ⟨#[], 0, 0, 0, 0, Nat.le_refl 0⟩

/-- Opens a scope inside the others. -/
def push (s : ScopeStack) : ScopeStack :=
  { frames := if s.depth < s.frames.size then s.frames.setIfInBounds s.depth .empty
      else s.frames.push .empty
    depth := s.depth + 1
    opened := s.opened + 1
    closed := s.closed
    maxDepth := max s.maxDepth (s.depth + 1)
    depth_le := by
      split
      · rw [Array.size_setIfInBounds]
        assumption
      · simpa using s.depth_le }

/-- Closes the innermost scope. -/
def pop (s : ScopeStack) : ScopeStack :=
  { s with
    depth := s.depth - 1
    closed := s.closed + 1
    depth_le := Nat.le_trans (Nat.sub_le _ _) s.depth_le }

/-- The open scopes, innermost first. -/
def openScopes (s : ScopeStack) : List Scope := (s.frames.toList.take s.depth).reverse

/-- The number of frames made. -/
def framesAllocated (s : ScopeStack) : Nat := s.frames.size

/-- Declares a name in the innermost scope, unless it is declared there already: then the first
    declaration stays, and is given back. With no scope open nothing is declared. -/
def define (s : ScopeStack) (name : String) (b : Binding) : Except Binding ScopeStack :=
  match s.depth with
  | 0 => .ok s
  | top + 1 =>
    match s.frames[top]? with
    | none => .ok s
    | some frame =>
      match frame.get? name with
      | some first => .error first
      | none =>
        .ok { s with
          frames := s.frames.setIfInBounds top (frame.insert name b)
          depth_le := by simpa using s.depth_le }

/-- What a name stands for: its declaration in the innermost scope that has one. -/
def lookup? (s : ScopeStack) (name : String) : Option Binding :=
  s.openScopes.findSome? (·.get? name)

/-- Every declared name, inner scopes first and each in the order of declaration. -/
def visibleNames (s : ScopeStack) : List String := s.openScopes.flatMap Scope.names

end ScopeStack

end BraceLang
