import BraceLang.Proofs.Binding.Findings

/-! The scopes that are open at a place are among those of the program, each filled as far as the place.
    What is still to be declared is followed from a node to its parts (`Filling.parts`). -/

namespace BraceLang.Lexical

/-- So much is declared at the start of some scope of a program. -/
def IsFilled (p : Program) (scope : List Declaration) : Prop :=
  ∃ contents ∈ scopeContents p, scope <+: contents.map (·.declaration)

/-- The open scopes are among those of a program, also when the declarations are added to the innermost. -/
def Filling (p : Program) (scopes : Scopes) (ds : List Declaration) : Prop :=
  ∀ scope ∈ scopes.extend ds, IsFilled p scope

namespace Filling
variable {p : Program} {scopes : Scopes} {as bs : List Declaration}

theorem left (h : Filling p scopes (as ++ bs)) : Filling p scopes as := by
  cases scopes with
  | nil => exact h
  | cons scope outer =>
    obtain ⟨⟨contents, hmem, hprefix⟩, houter⟩ := List.forall_mem_cons.mp h
    refine List.forall_mem_cons.mpr ⟨⟨contents, hmem, .trans ?_ hprefix⟩, houter⟩
    rw [← List.append_assoc]
    exact List.prefix_append _ _

theorem after (h : Filling p scopes (as ++ bs)) : Filling p (scopes.extend as) bs := by
  unfold Filling
  rw [Scopes.extend_extend]
  exact h

theorem none (h : Filling p scopes as) : Filling p scopes [] := by
  rw [← List.nil_append as] at h
  exact h.left

theorem isFilled (h : Filling p scopes as) : ∀ scope ∈ scopes, IsFilled p scope := by
  have := h.none
  unfold Filling at this
  rwa [Scopes.extend_nil] at this

/-- A scope of the program is opened. -/
theorem enter {contents : List Introduction} (h : Filling p scopes as) (hmem : contents ∈ scopeContents p)
    (hds : contents.map (·.declaration) = bs) : Filling p ([] :: scopes) bs :=
  List.forall_mem_cons.mpr ⟨⟨contents, hmem, by rw [hds]; exact List.prefix_rfl⟩, h.isFilled⟩

theorem inTurn {standing : Standing} {ns : List Node} (h : Filling p scopes (ns.flatMap declares)) :
    ∀ q ∈ Lexical.inTurn standing scopes ns, Filling p q.scopes (declares q.node) := by
  induction ns generalizing scopes with
  | nil => exact List.forall_mem_nil _
  | cons n ns ih => exact List.forall_mem_cons.mpr ⟨h.left, ih h.after⟩

end Filling

theorem map_introducedBy (ns : List Node) :
    (introducedBy ns).map (·.declaration) = ns.flatMap declares := by
  rw [introducedBy, List.map_flatMap]
  exact List.flatMap_congr fun n _ => map_introduced n

theorem map_introducedAhead (ns : List Node) :
    (introducedAhead ns).map (·.declaration) = hoisted ns ++ ns.flatMap declares := by
  rw [introducedAhead, List.map_append, map_introducedBy, List.map_filterMap, hoisted]
  congr 2
  exact funext map_ahead?

/-! ### From a node to its parts -/

/-- What is still to be declared at a node is still to be declared at its parts, in the same scope or in
    the one that the node opens. -/
theorem Filling.parts {p : Program} {standing : Standing} {scopes : Scopes} {n : Node}
    (hopened : ∀ contents, opened? n = some contents → contents ∈ scopeContents p)
    (h : Filling p scopes (declares n)) :
    ∀ q ∈ Place.parts ⟨standing, scopes, n⟩, Filling p q.scopes (declares q.node) := by
  obtain ⟨id, range, resolved, shape⟩ := n
  rw [declares_eq] at h
  -- In each case what is still to be declared is put in the order in which `Place.parts` goes through
  -- the parts; each part takes its share, and leaves the rest to those after it.
  cases shape
  case member target member _ =>
    have h : Filling p scopes ([target].flatMap declares ++ [member].flatMap declares) := by
      simpa [leaves, Shape.map, Shape.toList] using h
    exact List.forall_mem_append.mpr ⟨h.left.inTurn, h.after.inTurn⟩
  case macroName target =>
    have h : Filling p scopes ([target].flatMap declares) := by
      simpa [leaves, Shape.map, Shape.toList] using h
    exact h.inTurn
  case macroCall target args | call target args =>
    have h : Filling p scopes ([target].flatMap declares ++ args.flatMap declares) := by
      simpa [leaves, Shape.map, Shape.toList, List.flatMap_map] using h
    exact List.forall_mem_append.mpr ⟨h.left.inTurn, h.after.inTurn⟩
  case var attrs _ _ pattern type init =>
    have h : Filling p scopes (attrs.flatMap declares ++ ((type.toList ++ init.toList).flatMap declares ++
        pattern.names.map fun name => ⟨name.text, id⟩)) := by
      simpa [leaves, Shape.map, Shape.toList, List.flatMap_map, Option.toList_map] using h
    exact List.forall_mem_append.mpr ⟨h.left.inTurn, h.after.left.inTurn⟩
  case field attrs _ name type default =>
    have h : Filling p scopes (attrs.flatMap declares ++ ((type :: default.toList).flatMap declares ++
        [⟨name.text, id⟩])) := by
      simpa [leaves, Shape.map, Shape.toList, List.flatMap_map, Option.toList_map] using h
    exact List.forall_mem_append.mpr ⟨h.left.inTurn, h.after.left.inTurn⟩
  case enumOption attrs name value =>
    have h : Filling p scopes (attrs.flatMap declares ++ (value.toList.flatMap declares ++
        [⟨name.text, id⟩])) := by
      simpa [leaves, Shape.map, Shape.toList, List.flatMap_map, Option.toList_map] using h
    exact List.forall_mem_append.mpr ⟨h.left.inTurn, h.after.left.inTurn⟩
  case param name type default =>
    have h : Filling p scopes ((type.toList ++ default.toList).flatMap declares ++ [⟨name.text, id⟩]) := by
      simpa [leaves, Shape.map, Shape.toList, List.flatMap_map, Option.toList_map] using h
    exact h.left.inTurn
  case generic name constraints =>
    have h : Filling p scopes (constraints.flatMap declares ++ [⟨name.text, id⟩]) := by
      simpa [leaves, Shape.map, Shape.toList, List.flatMap_map] using h
    exact h.left.inTurn
  case func attrs _ _ _ _ _ _ _ | typeAlias attrs _ _ _ _ | union attrs _ _ _ _ =>
    have h : Filling p scopes (attrs.flatMap declares ++ []) := by
      simpa [leaves, Shape.map, List.flatMap_map] using h
    have inner := h.after.enter (hopened _ rfl) (map_introducedBy _)
    exact List.forall_mem_append.mpr ⟨h.left.inTurn, inner.inTurn⟩
  case struct attrs _ _ generics members =>
    have h : Filling p scopes (attrs.flatMap declares ++ []) := by
      simpa [leaves, Shape.map, List.flatMap_map] using h
    have contents : (introducedBy generics ++ introducedAhead members).map (·.declaration) =
        generics.flatMap declares ++ (hoisted members ++ members.flatMap declares) := by
      rw [List.map_append, map_introducedBy, map_introducedAhead]
    have inner := h.after.enter (hopened _ rfl) contents
    refine List.forall_mem_append.mpr ⟨h.left.inTurn, ?_⟩
    exact List.forall_mem_append.mpr ⟨inner.left.inTurn, inner.after.after.inTurn⟩
  case enum attrs _ _ base options =>
    have h : Filling p scopes (attrs.flatMap declares ++ (base.toList.flatMap declares ++ [])) := by
      simpa [leaves, Shape.map, List.flatMap_map, Option.toList_map] using h
    have inner := h.after.after.enter (hopened _ rfl) (map_introducedBy _)
    refine List.forall_mem_append.mpr ⟨h.left.inTurn, ?_⟩
    exact List.forall_mem_append.mpr ⟨h.after.left.inTurn, inner.inTurn⟩
  case closure | forLoop => exact (h.enter (hopened _ rfl) (map_introducedBy _)).inTurn
  case block =>
    exact (h.enter (hopened _ rfl) (map_introducedAhead _)).after.inTurn
  case ifElse condition thenBranch elseBranch =>
    have hopened := hopened (introducedBy (condition :: thenBranch :: elseBranch.toList))
    simp only [Place.parts]
    unfold opened? at hopened
    split
    · rename_i hc
      exact (h.enter (hopened (if_pos hc)) (map_introducedBy _)).inTurn
    · rename_i hc
      refine Filling.inTurn ?_
      simpa [leaves, Shape.map, Shape.toList, List.flatMap_map, Option.toList_map, hc] using h
  case whileLoop condition body =>
    have hopened := hopened (introducedBy [condition, body])
    simp only [Place.parts]
    unfold opened? at hopened
    split
    · rename_i hc
      exact (h.enter (hopened (if_pos hc)) (map_introducedBy _)).inTurn
    · rename_i hc
      refine Filling.inTurn ?_
      simpa [leaves, Shape.map, Shape.toList, hc] using h
  case deferred stmt =>
    have h : Filling p scopes (hoisted [stmt] ++ declares stmt) := by
      rw [hoisted_singleton]
      exact h
    exact List.forall_mem_singleton.mpr h.after
  all_goals
    refine Filling.inTurn ?_
    simpa [leaves, Shape.map, Shape.toList, List.flatMap_map, Option.toList_map] using h

theorem Filling.reaches {p : Program} {q r : Place} (hreach : q.Reaches r)
    (hnodes : q.node.preorder ⊆ p.items.flatMap Node.preorder)
    (h : Filling p q.scopes (declares q.node)) : Filling p r.scopes (declares r.node) := by
  induction hreach with
  | refl => exact h
  | @part q part r hpart _ ih =>
    have hown : q.node ∈ p.items.flatMap Node.preorder := by
      refine hnodes ?_
      rw [Node.preorder_eq]
      exact List.mem_cons_self
    refine ih (fun m hm => hnodes ?_) (Filling.parts (fun contents hcontents => ?_) h part hpart)
    · rw [Node.preorder_eq]
      exact List.mem_cons_of_mem _ (List.mem_flatMap.mpr ⟨_, Place.node_mem_children hpart, hm⟩)
    · exact List.mem_cons_of_mem _ (List.mem_filterMap.mpr ⟨q.node, hown, hcontents⟩)

/-- Every scope that is open at a place is one of the program's, filled as far as the place. -/
theorem isFilled_of_isPlaceOf {p : Program} {q : Place} (h : IsPlaceOf p q) :
    ∀ scope ∈ q.scopes, IsFilled p scope := by
  obtain ⟨item, hitem, hreach⟩ := h
  have top : Filling p [] [] := List.forall_mem_nil _
  have items := top.enter List.mem_cons_self (map_introducedAhead p.items)
  refine (Filling.reaches hreach (fun m hm => ?_) (items.after.inTurn item hitem)).isFilled
  refine List.mem_flatMap.mpr ⟨item.node, ?_, hm⟩
  rw [← map_inTurn .plain [hoisted p.items] p.items]
  exact List.mem_map_of_mem hitem

end BraceLang.Lexical
