import BraceLang.Proofs.Node.Unlinked

/-! What is left of a tree when identities and ranges are forgotten, and how high a tree is. -/

namespace BraceLang

/-- The range that stands for every other once ranges are forgotten. -/
def Range.nowhere : Range := ⟨0, ⟨0, 0, 0⟩, ⟨0, 0, 0⟩⟩

def Ident.unplaced (n : Ident) : Ident := ⟨n.text, .nowhere⟩

def Pattern.unplaced : Pattern → Pattern
  | single name => single name.unplaced
  | tuple first others => tuple first.unplaced (others.map Ident.unplaced)

/-- The construct with the ranges of its own names forgotten. -/
def Shape.unplaced {α : Type} : Shape α → Shape α
  | dot n => dot n.unplaced
  | fieldInit n x => fieldInit n.unplaced x
  | param n x y => param n.unplaced x y
  | var attrs mods isConst pattern x y => var attrs mods isConst pattern.unplaced x y
  | func attrs mods isAsync n op generics sig body =>
    func attrs mods isAsync n.unplaced op generics sig body
  | typeAlias attrs mods n generics x => typeAlias attrs mods n.unplaced generics x
  | union attrs mods n generics xs => union attrs mods n.unplaced generics xs
  | enum attrs mods n base xs => enum attrs mods n.unplaced base xs
  | enumOption attrs n x => enumOption attrs n.unplaced x
  | struct attrs mods n generics xs => struct attrs mods n.unplaced generics xs
  | field attrs isPrivate n x y => field attrs isPrivate n.unplaced x y
  | generic n xs => generic n.unplaced xs
  | named head path args => named head.unplaced (path.map Ident.unplaced) args
  | shape => shape

namespace Node

/-- The tree with all identities and ranges forgotten. -/
def skeleton (n : Node) : Node :=
  n.fold fun n parts => ⟨0, .nowhere, n.resolved, (parts.map (·.2)).unplaced⟩

theorem skeleton_eq (n : Node) :
    n.skeleton = ⟨0, .nowhere, n.resolved, (n.shape.map skeleton).unplaced⟩ := by
  rw [skeleton, fold_eq, Shape.map_map]
  rfl

/-- The number of edges on the longest way down. -/
def height (n : Node) : Nat :=
  n.fold fun _ parts => (parts.toList.map (·.2 + 1)).foldr max 0

theorem height_eq (n : Node) : n.height = (n.children.map (·.height + 1)).foldr max 0 := by
  rw [height, fold_eq, Shape.toList_map, List.map_map]
  rfl

theorem height_lt_of_mem_children {n c : Node} (h : c ∈ n.children) : c.height < n.height := by
  rw [height_eq n]
  generalize n.children = cs at h
  induction cs with
  | nil => cases h
  | cons d cs ih =>
    rw [List.map_cons, List.foldr_cons]
    rcases List.mem_cons.mp h with rfl | h
    · exact Nat.le_max_left _ _
    · exact Nat.lt_of_lt_of_le (ih h) (Nat.le_max_right _ _)

end Node

end BraceLang
