import BraceLang.Scope

/-! The stack of scopes through its view `openScopes`: opening a scope puts an empty one in front, closing
    one takes the front away, and a declaration changes the front alone. Frames of closed scopes stay
    behind the open ones and are never seen. -/

namespace BraceLang

namespace Scope

theorem get?_empty (x : String) : Scope.empty.get? x = none := Std.HashMap.getElem?_empty

/-- A name that is new to the scope is added to it, and the others stay. -/
theorem get?_insert {s : Scope} {name : String} (h : s.get? name = none) (b : Binding) (x : String) :
    (s.insert name b).get? x = (s.get? x).or (if x = name then some b else none) := by
  unfold get? insert at *
  rw [Std.HashMap.getElem?_insert]
  by_cases hx : x = name
  · simp [hx, h]
  · simp [hx, beq_eq_false_iff_ne.mpr (Ne.symm hx)]

end Scope

namespace ScopeStack

@[simp] theorem openScopes_push (s : ScopeStack) : s.push.openScopes = .empty :: s.openScopes := by
  have kept : s.push.frames.toList.take (s.depth + 1) = s.frames.toList.take s.depth ++ [.empty] := by
    have hd := s.depth_le
    unfold push
    split
    · rename_i h
      rw [Array.toList_setIfInBounds, List.take_succ_eq_append_getElem (by simpa using h)]
      simp [List.take_set_of_le]
    · rename_i h
      have hd : s.depth = s.frames.toList.length := by
        rw [Array.length_toList]
        omega
      rw [Array.toList_push, hd, List.take_length, List.take_of_length_le (by simp)]
  show (s.push.frames.toList.take (s.depth + 1)).reverse = _
  rw [kept, List.reverse_append]
  rfl

@[simp] theorem openScopes_pop (s : ScopeStack) : s.pop.openScopes = s.openScopes.tail := by
  show (s.frames.toList.take (s.depth - 1)).reverse = (s.frames.toList.take s.depth).reverse.tail
  rw [List.tail_reverse, List.dropLast_eq_take, List.take_take, List.length_take, Array.length_toList]
  congr 2
  have := s.depth_le
  omega

theorem length_openScopes (s : ScopeStack) : s.openScopes.length = s.depth := by
  simp [openScopes, s.depth_le]

/-- The innermost open scope is the frame just below the depth. -/
theorem openScopes_eq_cons {s : ScopeStack} {top : Nat} (h : s.depth = top + 1) :
    ∃ frame, s.frames[top]? = some frame ∧
      s.openScopes = frame :: (s.frames.toList.take top).reverse := by
  have hlt : top < s.frames.toList.length := by
    have := s.depth_le
    rw [Array.length_toList]
    omega
  refine ⟨s.frames.toList[top], by simp, ?_⟩
  unfold openScopes
  rw [h, List.take_succ_eq_append_getElem hlt, List.reverse_append]
  rfl

theorem define_nil {s : ScopeStack} (h : s.openScopes = []) (name : String) (b : Binding) :
    s.define name b = .ok s := by
  have hd : s.depth = 0 := by rw [← length_openScopes, h, List.length_nil]
  simp only [define, hd]

/-- A name that the innermost scope has stays as it is, and its first declaration is given back. -/
theorem define_declared {s : ScopeStack} {scope : Scope} {outer : List Scope} {name : String}
    {first : Binding} (h : s.openScopes = scope :: outer) (hname : scope.get? name = some first)
    (b : Binding) : s.define name b = .error first := by
  obtain ⟨top, hd⟩ : ∃ top, s.depth = top + 1 :=
    Nat.exists_eq_add_one_of_ne_zero (by rw [← length_openScopes, h]; simp)
  obtain ⟨frame, hframe, hopen⟩ := openScopes_eq_cons hd
  rw [h] at hopen
  cases hopen
  simp only [define, hd, hframe, hname]

/-- A new name joins the innermost scope, and the scopes around it stay. -/
theorem define_new {s : ScopeStack} {scope : Scope} {outer : List Scope} {name : String}
    (h : s.openScopes = scope :: outer) (hname : scope.get? name = none) (b : Binding) :
    ∃ t, s.define name b = .ok t ∧ t.openScopes = scope.insert name b :: outer := by
  obtain ⟨top, hd⟩ : ∃ top, s.depth = top + 1 :=
    Nat.exists_eq_add_one_of_ne_zero (by rw [← length_openScopes, h]; simp)
  obtain ⟨frame, hframe, hopen⟩ := openScopes_eq_cons hd
  rw [h] at hopen
  cases hopen
  have hlt : top < s.frames.size := by
    have := s.depth_le
    omega
  simp only [define, hd, hframe, hname]
  refine ⟨_, rfl, ?_⟩
  show ((s.frames.setIfInBounds top (scope.insert name b)).toList.take (top + 1)).reverse = _
  rw [Array.toList_setIfInBounds, List.take_succ_eq_append_getElem (by simpa using hlt)]
  simp [List.take_set_of_le]

end ScopeStack

end BraceLang
