import BraceLang.Binding
import BraceLang.Proofs.Node.Preorder
import BraceLang.Proofs.Node.Slots

/-! Where jumps lead. A node lies in regions of the nodes around it: in the body of a function or closure,
    in the repeated part of a loop, or elsewhere in them. A `return` leaves the nearest body; a `break` or
    `continue` is about the nearest loop, unless a body is nearer.

    The binder keeps the bodies and loops around a place on a stack; `contextsAbove` reads that stack off
    the nodes above the place. -/

namespace BraceLang

/-- What a part of a construct lies in, as jumps see it. -/
inductive Region where
  | function
  | closure
  /-- What a loop repeats. -/
  | loop
  | other
deriving DecidableEq

/-- The parts in source order, each with the region it lies in. -/
def Shape.regions {α : Type} : Shape α → List (Region × α)
  | func attrs _ _ _ _ generics sig body =>
    each Region.other (attrs ++ generics ++ [sig]) ++ each Region.function body.toList
  | closure _ sig body => [(.other, sig), (.closure, body)]
  | whileLoop condition body => [(.other, condition), (.loop, body)]
  | forLoop init condition step body =>
    each Region.other init.toList ++ each Region.loop (condition.toList ++ step.toList ++ [body])
  | shape => each Region.other shape.toList

theorem Shape.map_snd_regions {α : Type} (shape : Shape α) : shape.regions.map Prod.snd = shape.toList := by
  cases shape <;> simp [regions, toList]

/-- A node around another, and the region of it that the other lies in. -/
structure Ancestor where
  node : Node
  region : Region

namespace Ancestor

/-- The other lies in the body of a function or closure. -/
def IsBody (a : Ancestor) : Prop := a.region = .function ∨ a.region = .closure

/-- The other lies in the repeated part of a loop. -/
def IsLoop (a : Ancestor) : Prop := a.region = .loop

end Ancestor

/-- `m` is `n` or lies below it; `above` are the nodes around `m` up to `n`, innermost first. -/
inductive Below : Node → List Ancestor → Node → Prop where
  | refl (n : Node) : Below n [] n
  | part {n c m : Node} {region : Region} {above : List Ancestor} (part : (region, c) ∈ n.shape.regions)
    (rest : Below c above m) : Below n (above ++ [⟨n, region⟩]) m

/-- The first of the ancestors with a property. -/
def Nearest (P : Ancestor → Prop) (above : List Ancestor) (a : Ancestor) : Prop :=
  ∃ inner outer, above = inner ++ a :: outer ∧ P a ∧ ∀ b ∈ inner, ¬P b

theorem Below.exists_of_mem_preorder {n m : Node} (h : m ∈ n.preorder) : ∃ above, Below n above m := by
  induction n using Node.induct with
  | step n ih =>
    rw [Node.preorder_eq, List.mem_cons, List.mem_flatMap] at h
    rcases h with rfl | ⟨c, hc, hm⟩
    · exact ⟨[], .refl m⟩
    · obtain ⟨above, hbelow⟩ := ih c hc hm
      rw [Node.children, ← Shape.map_snd_regions, List.mem_map] at hc
      obtain ⟨⟨region, c⟩, hpart, rfl⟩ := hc
      exact ⟨_, .part hpart hbelow⟩

theorem Below.mem_preorder {n m : Node} {above : List Ancestor} (h : Below n above m) : m ∈ n.preorder := by
  induction h with
  | refl n =>
    rw [Node.preorder_eq]
    exact List.mem_cons_self
  | @part n c m region above hpart _ ih =>
    have hc : c ∈ n.children := by
      rw [Node.children, ← Shape.map_snd_regions]
      exact List.mem_map_of_mem hpart
    rw [Node.preorder_eq]
    exact List.mem_cons_of_mem _ (List.mem_flatMap.mpr ⟨c, hc, ih⟩)

section Nearest
variable {P : Ancestor → Prop} {a b : Ancestor} {above : List Ancestor}

theorem not_nearest_nil : ¬Nearest P [] b := by
  rintro ⟨inner, outer, h, -⟩
  cases inner <;> cases h

theorem nearest_cons_iff : Nearest P (a :: above) b ↔ P a ∧ b = a ∨ ¬P a ∧ Nearest P above b := by
  constructor
  · rintro ⟨inner, outer, habove, hb, hinner⟩
    cases inner with
    | nil =>
      cases habove
      exact .inl ⟨hb, rfl⟩
    | cons c inner =>
      cases habove
      obtain ⟨hc, hinner⟩ := List.forall_mem_cons.mp hinner
      exact .inr ⟨hc, inner, outer, rfl, hb, hinner⟩
  · rintro (⟨ha, rfl⟩ | ⟨ha, inner, outer, rfl, hb, hinner⟩)
    · exact ⟨[], above, rfl, ha, List.forall_mem_nil _⟩
    · exact ⟨a :: inner, outer, rfl, hb, List.forall_mem_cons.mpr ⟨ha, hinner⟩⟩

end Nearest

namespace Binder

/-! ### The stack of contexts -/

/-- What the binder notes about a region of the node with the given identity. -/
def Region.context? : Region → NodeId → Option Context
  | .function, id => some (.function id)
  | .closure, id => some (.closure id)
  | .loop, id => some (.loop id)
  | .other, _ => none

/-- The bodies and loops among some ancestors. -/
def contextsAbove (above : List Ancestor) : List Context :=
  above.filterMap fun a => Region.context? a.region a.node.id

theorem enclosingFunction?_contextsAbove {above : List Ancestor} {id : NodeId} :
    enclosingFunction? (contextsAbove above) = some id ↔
      ∃ a, Nearest Ancestor.IsBody above a ∧ a.node.id = id := by
  induction above with
  | nil => simp [contextsAbove, enclosingFunction?, not_nearest_nil]
  | cons a above ih =>
    obtain ⟨n, region⟩ := a
    simp only [nearest_cons_iff]
    cases region <;>
      simp_all [contextsAbove, enclosingFunction?, Region.context?, Ancestor.IsBody]

theorem enclosingLoop?_contextsAbove {above : List Ancestor} {id : NodeId} :
    enclosingLoop? (contextsAbove above) = some id ↔
      ∃ a, Nearest (fun a => a.IsBody ∨ a.IsLoop) above a ∧ a.IsLoop ∧ a.node.id = id := by
  induction above with
  | nil => simp [contextsAbove, enclosingLoop?, not_nearest_nil]
  | cons a above ih =>
    obtain ⟨n, region⟩ := a
    simp only [nearest_cons_iff]
    cases region <;>
      simp_all [contextsAbove, enclosingLoop?, Region.context?, Ancestor.IsBody, Ancestor.IsLoop]

/-! ### Jumps that are linked -/

/-- A jump inside these contexts is linked to what it leaves. -/
def JumpLinked (contexts : List Context) (n : Node) : Prop :=
  match n.shape with
  | .returned _ => n.resolved = enclosingFunction? contexts
  | .broken | .continued => n.resolved = enclosingLoop? contexts
  | _ => True

/-- Every jump in a tree that stands inside these contexts is linked to what it leaves. -/
def JumpsLinked (contexts : List Context) (n : Node) : Prop :=
  ∀ above m, Below n above m → JumpLinked (contextsAbove above ++ contexts) m

theorem JumpsLinked.of_parts {contexts : List Context} {n : Node} (h : JumpLinked contexts n)
    (hparts : ∀ p ∈ n.shape.regions, JumpsLinked ((Region.context? p.1 n.id).toList ++ contexts) p.2) :
    JumpsLinked contexts n := by
  intro above m hbelow
  cases hbelow with
  | refl => exact h
  | @part _ c _ region above hpart hrest =>
    have hcontexts : contextsAbove (above ++ [⟨n, region⟩]) =
        contextsAbove above ++ (Region.context? region n.id).toList := by
      rw [contextsAbove, List.filterMap_append, List.filterMap_cons, List.filterMap_nil]
      cases region <;> rfl
    rw [hcontexts, List.append_assoc]
    exact hparts _ hpart above m hrest

end Binder

end BraceLang
