import BraceLang.Proofs.Node.Preorder

/-! Trees in which every member is selected by a name or an index. -/

namespace BraceLang

/-- Whether a node is a name or an index, as may stand on the right of a point. -/
def Node.isSelector (n : Node) : Bool :=
  match n.shape with
  | .name _ | .int _ => true
  | _ => false

/-- Whether a construct that is a selection is one by a name or an index. -/
def Shape.selectsProperly : Shape Node → Bool
  | member _ selector _ => selector.isSelector
  | _ => true

namespace Node

/-- Every selection in the tree is by a name or an index. -/
inductive ProperMembers : Node → Prop where
  | mk {n : Node} (member : n.shape.selectsProperly = true)
    (parts : ∀ c ∈ n.children, ProperMembers c) : ProperMembers n

theorem ProperMembers.member {n target member : Node} {optional : Bool} (h : n.ProperMembers)
    (hn : n.shape = .member target member optional) : member.isSelector := by
  cases h with
  | mk member _ =>
    rw [hn] at member
    exact member

theorem ProperMembers.parts {n c : Node} (h : n.ProperMembers) (hc : c ∈ n.children) :
    c.ProperMembers := by
  cases h with
  | mk _ parts => exact parts c hc

theorem ProperMembers.of_mem_preorder {n m : Node} (h : n.ProperMembers) (hm : m ∈ n.preorder) :
    m.ProperMembers := by
  induction n using Node.induct with
  | step n ih =>
    rw [preorder_eq, List.mem_cons, List.mem_flatMap] at hm
    rcases hm with rfl | ⟨c, hc, hm⟩
    · exact h
    · exact ih c hc (h.parts hc) hm

end Node

end BraceLang
