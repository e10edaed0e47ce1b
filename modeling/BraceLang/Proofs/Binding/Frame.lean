import BraceLang.Proofs.Binding.Relinks.Constructs
import BraceLang.Proofs.Binding.Targets
import Mathlib.Data.List.Forall2

/-! Binding writes links and nothing else, and no link at a name that is declared nowhere: the member of a
    selection, the name of a macro, and the name of an attribute. -/

namespace BraceLang

/-- The attributes before a declaration. -/
def Shape.attributes {α : Type} : Shape α → List α
  | var attrs .. | func attrs .. | typeAlias attrs .. | union attrs .. | enum attrs .. | enumOption attrs ..
  | struct attrs .. | field attrs .. => attrs
  | _ => []

theorem forall₂_flatMap {α β γ : Type} {R : β → γ → Prop} {f : α → List β} {g : α → List γ} {xs : List α}
    (h : ∀ x ∈ xs, List.Forall₂ R (f x) (g x)) : List.Forall₂ R (xs.flatMap f) (xs.flatMap g) := by
  induction xs with
  | nil => exact .nil
  | cons x xs ih =>
    obtain ⟨hx, hxs⟩ := List.forall_mem_cons.mp h
    exact List.rel_append hx (ih hxs)

namespace Lexical

theorem mem_seats_of_mem_attributes {α : Type} {standing : Standing} {shape : Shape α} {a : α}
    (h : a ∈ shape.attributes) : (Seat.attribute, a) ∈ seats standing shape := by
  cases shape
  case var | func | typeAlias | union | enum | enumOption | struct | field =>
    exact List.mem_append_left _ (mem_each.mpr ⟨rfl, h⟩)
  all_goals cases h

theorem Standing.links_map {α β : Type} (standing : Standing) (f : α → β) (shape : Shape α) :
    standing.links (shape.map f) = standing.links shape := by
  cases shape <;> rfl

theorem Standing.links_selector {α : Type} (shape : Shape α) : Standing.selector.links shape = false := by
  cases shape <;> rfl

/-- Only uses of names and jumps are linked. -/
theorem Standing.links_imp {α : Type} {standing : Standing} {shape : Shape α} (h : standing.links shape = true) :
    shape.isNaming = true ∨ shape.isJump = true := by
  cases shape <;> first | exact .inl rfl | exact .inr rfl | cases h

/-- A node after binding is the one before but for links, and is linked anew only if it is a use of a name or
    a jump. -/
def SameButLink (before after : Node) : Prop :=
  after.unlinked = before.unlinked ∧
    (after.resolved = before.resolved ∨ before.shape.isNaming = true ∨ before.shape.isJump = true)

namespace Relinks
variable {standing : Standing} {n n' : Node}

theorem preorder (h : Relinks standing n n') : List.Forall₂ SameButLink n.preorder n'.preorder := by
  have whole := h.unlinked
  induction h with
  | @mk standing n n' pairs before after id range link parts ih =>
    rw [Node.preorder_eq, Node.preorder_eq n', Node.children, Node.children, before, after, Shape.toList_map,
      Shape.toList_map, List.flatMap_map, List.flatMap_map]
    refine .cons ⟨whole, link.imp_right Standing.links_imp⟩ (forall₂_flatMap fun p hp => ?_)
    rw [← map_snd_seats standing] at hp
    obtain ⟨q, hq, rfl⟩ := List.mem_map.mp hp
    exact ih q hq (parts q hq).unlinked

/-- Every part of a node after binding was a part of it before. -/
theorem part (h : Relinks standing n n') {p : Seat × Node} (hp : p ∈ seats standing n'.shape) :
    ∃ c ∈ n.children, Relinks p.1.standing c p.2 := by
  obtain ⟨pairs, before, after, -, -, -, parts⟩ := h
  rw [after, seats_map] at hp
  obtain ⟨q, hq, rfl⟩ := List.mem_map.mp hp
  refine ⟨q.2.1, ?_, parts q hq⟩
  rw [Node.children, before, Shape.toList_map, ← map_snd_seats standing, List.map_map]
  exact List.mem_map_of_mem hq

/-- Every node of a tree after binding was a node of it before. -/
theorem exists_before (h : Relinks standing n n') {P : Node → Prop} (all : n.Throughout P) {m' : Node}
    (hm : m' ∈ n'.preorder) : ∃ standing m, m.Throughout P ∧ Relinks standing m m' := by
  have own := h
  induction h with
  | @mk standing n n' pairs before after _ _ _ parts ih =>
    rw [Node.preorder_eq] at hm
    rcases List.mem_cons.mp hm with rfl | hm
    · exact ⟨standing, n, all, own⟩
    rw [Node.children, after, Shape.toList_map, List.flatMap_map, ← map_snd_seats standing,
      List.flatMap_map] at hm
    obtain ⟨p, hp, hm⟩ := List.mem_flatMap.mp hm
    refine ih p hp (all.part ?_) hm (parts p hp)
    rw [Node.children, before, Shape.toList_map, ← map_snd_seats standing, List.map_map]
    exact List.mem_map_of_mem hp

theorem resolved_eq_none (h : Relinks standing n n') (free : n.resolved = none)
    (bare : standing.links n'.shape = false) : n'.resolved = none := by
  have same : standing.links n.shape = standing.links n'.shape := by
    have shapes := congrArg Node.shape h.unlinked
    rw [Node.shape_unlinked, Node.shape_unlinked] at shapes
    rw [← standing.links_map Node.unlinked, ← shapes, standing.links_map]
  obtain ⟨-, -, -, -, -, link, -⟩ := h
  rw [same, bare, free] at link
  exact link.resolve_right Bool.false_ne_true

/-- A part that cannot be linked in its seat stays without a link. -/
theorem part_resolved_eq_none (h : Relinks standing n n') (free : n.Throughout fun m => m.resolved = none)
    {p : Seat × Node} (hp : p ∈ seats standing n'.shape) (bare : p.1.standing.links p.2.shape = false) :
    p.2.resolved = none := by
  obtain ⟨c, hc, part⟩ := h.part hp
  exact part.resolved_eq_none (free.part hc).here bare

end Relinks

/-- A bare name is linked only where it stands for a value. -/
theorem Standing.links_of_isName {standing : Standing} {n : Node} (hn : Binder.isName n = true)
    (h : standing ≠ .plain) : standing.links n.shape = false := by
  unfold Binder.isName at hn
  split at hn
  · rename_i shape
    rw [shape]
    exact decide_eq_false h
  · cases hn

end Lexical

namespace Binder
open Lexical

/-- Binding a program changes nothing but links, node by node, and links none but uses of names, uses of types
    and jumps. The member of a selection stays without a link, and so does a bare name that is the target of a
    macro, an attribute, or the callee of an attribute. -/
theorem bind_only_links (source : Source) (log : Log) :
    (bind (parse source).1 log).1.unlinked = (parse source).1.unlinked ∧
    List.Forall₂ SameButLink ((parse source).1.items.flatMap Node.preorder)
      ((bind (parse source).1 log).1.items.flatMap Node.preorder) ∧
    ∀ n ∈ (bind (parse source).1 log).1.items.flatMap Node.preorder,
      (∀ target member optional, n.shape = .member target member optional → member.resolved = none) ∧
      (∀ target, n.shape = .macroName target → isName target = true → target.resolved = none) ∧
      (∀ target args, n.shape = .macroCall target args → isName target = true → target.resolved = none) ∧
      ∀ a ∈ n.shape.attributes, (isName a = true → a.resolved = none) ∧
        ∀ callee args, a.shape = .call callee args → isName callee = true → callee.resolved = none := by
  obtain ⟨pairs, before, after, relinks⟩ := bind_relinks (parse source).1 log
  refine ⟨?_, ?_, ?_⟩
  · have items : (bind (parse source).1 log).1.items.map Node.unlinked =
        (parse source).1.items.map Node.unlinked := by
      rw [before, after, List.map_map, List.map_map]
      exact List.map_congr_left fun p hp => (relinks p hp).unlinked
    show ({ (parse source).1 with items := (bind (parse source).1 log).1.items.map Node.unlinked } : Program) = _
    rw [items]
    rfl
  · rw [before, after, List.flatMap_map, List.flatMap_map]
    exact forall₂_flatMap fun p hp => (relinks p hp).preorder
  · intro n' hn'
    rw [after, List.flatMap_map] at hn'
    obtain ⟨p, hp, hn'⟩ := List.mem_flatMap.mp hn'
    have unlinked := parse_unlinked source p.1 (by rw [before]; exact List.mem_map_of_mem hp)
    obtain ⟨standing, n, free, h⟩ := (relinks p hp).exists_before unlinked hn'
    have bare (seat : Seat) {m : Node} (seated : (seat, m) ∈ seats standing n'.shape) (name : isName m = true)
        (plain : seat.standing ≠ .plain) : m.resolved = none :=
      h.part_resolved_eq_none free seated (Standing.links_of_isName name plain)
    refine ⟨?_, ?_, ?_, fun a ha => ⟨?_, ?_⟩⟩
    · intro target member optional shape
      refine h.part_resolved_eq_none (p := (⟨.selector, .other⟩, member)) free ?_ (Standing.links_selector _)
      simp [shape, seats]
    · intro target shape name
      exact bare ⟨.macroTarget, .other⟩ (by simp [shape, seats]) name Standing.noConfusion
    · intro target args shape name
      exact bare ⟨.macroTarget, .other⟩ (by simp [shape, seats]) name Standing.noConfusion
    · intro name
      exact bare .attribute (mem_seats_of_mem_attributes ha) name Standing.noConfusion
    · -- the callee is a part of the attribute, which is a part of the node
      intro callee args shape name
      obtain ⟨c, hc, hattr⟩ := h.part (mem_seats_of_mem_attributes ha)
      refine hattr.part_resolved_eq_none (p := (⟨.attributeCallee, .other⟩, callee)) (free.part hc) ?_
        (Standing.links_of_isName name Standing.noConfusion)
      simp [shape, seats]

end Binder

end BraceLang
