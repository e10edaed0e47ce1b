import BraceLang.Node

/-! A tree without its links: what is left of it when every `resolved` is forgotten. Two trees with the
    same rest have nodes of the same construct at every place. -/

namespace BraceLang

theorem Shape.map_map {α β γ : Type} (f : α → β) (g : β → γ) (s : Shape α) :
    (s.map f).map g = s.map (g ∘ f) := by
  cases s <;> simp [map]

theorem Shape.map_congr {α β : Type} {f g : α → β} {s : Shape α} (h : ∀ x ∈ s.toList, f x = g x) :
    s.map f = s.map g := by
  have list (xs : List α) (hxs : ∀ x ∈ xs, f x = g x) : xs.map f = xs.map g := List.map_congr_left hxs
  have option (x : Option α) (hx : ∀ y ∈ x.toList, f y = g y) : x.map f = x.map g := by
    cases x with
    | none => rfl
    | some y => exact congrArg some (hx y List.mem_cons_self)
  cases s <;> simp only [toList, List.mem_append, List.mem_cons, List.not_mem_nil, or_false, or_imp,
    forall_and, forall_eq] at h <;> grind [map]

namespace Node

/-- The tree with no node linked. -/
def unlinked (n : Node) : Node :=
  n.fold fun n parts => { n with resolved := none, shape := parts.map (·.2) }

theorem unlinked_eq (n : Node) :
    n.unlinked = { n with resolved := none, shape := n.shape.map unlinked } := by
  rw [unlinked, fold_eq, Shape.map_map]
  rfl

@[simp] theorem id_unlinked (n : Node) : n.unlinked.id = n.id := by rw [unlinked_eq]

@[simp] theorem shape_unlinked (n : Node) : n.unlinked.shape = n.shape.map unlinked := by
  rw [unlinked_eq]

/-- A node that differs in its link and, below it, in links only. -/
theorem unlinked_with {n : Node} {shape : Shape Node} {resolved : Option NodeId}
    (h : shape.map unlinked = n.shape.map unlinked) :
    ({ n with resolved, shape } : Node).unlinked = n.unlinked := by
  rw [unlinked_eq, unlinked_eq n, h]

end Node

/-- The program with no node linked. -/
def Program.unlinked (p : Program) : Program := { p with items := p.items.map Node.unlinked }

end BraceLang
