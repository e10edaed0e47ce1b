import BraceLang.Node

/-! The nodes of a tree in order, parents before or after their parts, and what holds of all of them. -/

namespace BraceLang

namespace Node

theorem outlineThen_eq (n : Node) (depth : Nat) (rest : List (Nat × Node)) :
    n.outlineThen depth rest =
      (depth, n) :: n.children.foldr (fun c rest => c.outlineThen (depth + 1) rest) rest := by
  rw [outlineThen, fold_eq, Shape.toList_map, List.foldr_map]
  rfl

theorem map_foldr_outlineThen {ns : List Node} (depth : Nat) (rest : List (Nat × Node))
    (h : ∀ n ∈ ns, ∀ rest, (n.outlineThen depth rest).map (·.2) = n.preorder ++ rest.map (·.2)) :
    (ns.foldr (fun c rest => c.outlineThen depth rest) rest).map (·.2) =
      ns.flatMap preorder ++ rest.map (·.2) := by
  induction ns with
  | nil => rfl
  | cons n ns ih =>
    rw [List.foldr_cons, h n List.mem_cons_self, ih fun m hm => h m (List.mem_cons_of_mem _ hm),
      List.flatMap_cons, List.append_assoc]

theorem map_outlineThen (n : Node) : ∀ depth rest,
    (n.outlineThen depth rest).map (·.2) = n.preorder ++ rest.map (·.2) := by
  induction n using Node.induct with
  | step n ih =>
    have nodes : ∀ depth rest, (n.outlineThen depth rest).map (·.2) =
        n :: (n.children.flatMap preorder ++ rest.map (·.2)) := by
      intro depth rest
      rw [outlineThen_eq, List.map_cons, map_foldr_outlineThen _ rest fun c hc => ih c hc (depth + 1)]
    intro depth rest
    have own : n.preorder = n :: (n.children.flatMap preorder ++ []) := nodes 0 []
    rw [nodes, own, List.append_nil, List.cons_append]

/-- The nodes of a tree are the node itself and those of its parts. -/
theorem preorder_eq (n : Node) : n.preorder = n :: n.children.flatMap preorder := by
  have nodes := map_foldr_outlineThen 1 [] fun (c : Node) (_ : c ∈ n.children) =>
    c.map_outlineThen 1
  rw [List.map_nil, List.append_nil] at nodes
  rw [preorder, outline, outlineThen_eq, List.map_cons, nodes]

theorem sublist_flatMap_preorder (ns : List Node) : List.Sublist ns (ns.flatMap preorder) := by
  induction ns with
  | nil => exact .slnil
  | cons n ns ih =>
    rw [List.flatMap_cons, preorder_eq, List.cons_append]
    exact .cons_cons n (ih.trans (List.sublist_append_right _ _))

theorem preorder_sublist {n : Node} {ns : List Node} (hn : n ∈ ns) :
    List.Sublist n.preorder (ns.flatMap preorder) := List.sublist_flatten_of_mem (List.mem_map_of_mem hn)

/-- The nodes of a tree come in an order in which the parts of each come one after another. -/
theorem children_sublist_preorder (n : Node) : ∀ m ∈ n.preorder, List.Sublist m.children n.preorder := by
  induction n using Node.induct with
  | step n ih =>
    intro m hm
    rw [preorder_eq, List.mem_cons, List.mem_flatMap] at hm
    rw [preorder_eq]
    rcases hm with rfl | ⟨c, hc, hm⟩
    · exact .cons m (sublist_flatMap_preorder m.children)
    · exact .cons n ((ih c hc m hm).trans (preorder_sublist hc))

/-- The node and all nodes below it, parents after their parts. -/
def postorder (n : Node) : List Node := n.fold fun n parts => parts.toList.flatMap (·.2) ++ [n]

theorem postorder_eq (n : Node) : n.postorder = n.children.flatMap postorder ++ [n] := by
  rw [postorder, fold_eq, Shape.toList_map, List.flatMap_map]
  rfl

theorem mem_postorder (n : Node) : ∀ m, m ∈ n.postorder ↔ m ∈ n.preorder := by
  induction n using Node.induct with
  | step n ih =>
    intro m
    rw [postorder_eq, preorder_eq, List.mem_append, List.mem_singleton, List.mem_cons, or_comm,
      List.mem_flatMap, List.mem_flatMap]
    exact or_congr_right (exists_congr fun c => and_congr_right fun hc => ih c hc m)

theorem mem_flatMap_postorder {ns : List Node} {m : Node} :
    m ∈ ns.flatMap postorder ↔ m ∈ ns.flatMap preorder := by
  simp only [List.mem_flatMap, mem_postorder]

/-- A predicate holds of a node and of all nodes below it. -/
inductive Throughout (P : Node → Prop) : Node → Prop where
  | mk {n : Node} (here : P n) (parts : ∀ c ∈ n.children, Throughout P c) : Throughout P n

theorem Throughout.here {P : Node → Prop} {n : Node} (h : Throughout P n) : P n := by
  cases h with
  | mk here _ => exact here

theorem Throughout.part {P : Node → Prop} {n c : Node} (h : Throughout P n) (hc : c ∈ n.children) :
    Throughout P c := by
  cases h with
  | mk _ parts => exact parts c hc

theorem Throughout.imp {P Q : Node → Prop} {n : Node} (h : Throughout P n) (hpq : ∀ m, P m → Q m) :
    Throughout Q n := by
  induction h with
  | mk here _ ih => exact .mk (hpq _ here) ih

/-- What holds throughout a tree holds throughout every tree in it. -/
theorem Throughout.subtree {P : Node → Prop} {n m : Node} (h : Throughout P n) (hm : m ∈ n.preorder) :
    Throughout P m := by
  induction h with
  | mk here parts ih =>
    rw [preorder_eq, List.mem_cons, List.mem_flatMap] at hm
    rcases hm with rfl | ⟨c, hc, hm⟩
    · exact .mk here parts
    · exact ih c hc hm

theorem Throughout.of_mem_preorder {P : Node → Prop} {n m : Node} (h : Throughout P n)
    (hm : m ∈ n.preorder) : P m := (h.subtree hm).here

end Node

end BraceLang
