import BraceLang.Proofs.Binding.Links
import BraceLang.Proofs.Grammar.Termination
import BraceLang.Proofs.Node.Preorder

/-! Binding a parsed program is lexical scoping. The places of a program cover its nodes
    (`exists_isPlaceOf`), every selection in a parsed program is by a name or an index, and so every
    use of a name is linked to what it denotes, and to nothing else. -/

namespace BraceLang

namespace Lexical

/-! ### Every node has a place -/

theorem map_inTurn (standing : Standing) (scopes : Scopes) (ns : List Node) :
    (inTurn standing scopes ns).map (·.node) = ns := by
  induction ns generalizing scopes with
  | nil => rfl
  | cons n ns ih => rw [inTurn, List.map_cons, ih]

/-- The places of the parts of a node are places for its parts, in order. -/
theorem Place.map_parts (p : Place) : p.parts.map (·.node) = p.node.children := by
  unfold parts Node.children
  cases p.node.shape <;> simp [map_inTurn, Shape.toList]

theorem Place.exists_reaches {n m : Node} (h : m ∈ n.preorder) :
    ∀ p : Place, p.node = n → ∃ q, p.Reaches q ∧ q.node = m := by
  induction n using Node.induct with
  | step n ih =>
    intro p hp
    rw [Node.preorder_eq] at h
    rcases List.mem_cons.mp h with rfl | h
    · exact ⟨p, .refl p, hp⟩
    · obtain ⟨c, hc, hm⟩ := List.mem_flatMap.mp h
      rw [← hp, ← p.map_parts] at hc
      obtain ⟨part, hpart, rfl⟩ := List.mem_map.mp hc
      have hchild : part.node ∈ n.children := by
        rw [← hp, ← p.map_parts]
        exact List.mem_map_of_mem hpart
      obtain ⟨q, hreach, hq⟩ := ih part.node hchild hm part rfl
      exact ⟨q, .part hpart hreach, hq⟩

theorem exists_isPlaceOf {p : Program} {n : Node} (h : n ∈ p.items.flatMap Node.preorder) :
    ∃ q, IsPlaceOf p q ∧ q.node = n := by
  obtain ⟨item, hitem, hn⟩ := List.mem_flatMap.mp h
  rw [← map_inTurn .plain [hoisted p.items] p.items] at hitem
  obtain ⟨place, hplace, rfl⟩ := List.mem_map.mp hitem
  obtain ⟨q, hreach, hq⟩ := Place.exists_reaches hn place rfl
  exact ⟨q, ⟨place, hplace, hreach⟩, hq⟩

/-! ### Parsed programs -/

open Grammar

theorem parse_properMembers (source : Source) : ∀ n ∈ (parse source).1.items, n.ProperMembers := by
  obtain ⟨items, t, hrun, -, -⟩ := statements_reach_end (Rules.within_read nestingLimit)
    (State.start (TokenStream.ofSource source))
  have hread := statements_reads (Rules.within_read nestingLimit).statement
    (Rules.within_read nestingLimit).moves hrun
  rw [parse_eq hrun]
  exact fun n hn => hread.proper n (List.mem_map_of_mem hn)

/-- In a program that was parsed and bound, every node has a place, and a place that uses a name is
    linked to a declaration exactly if the name denotes that declaration there: the first one made so
    far in the innermost open scope that holds the name. -/
theorem bind_resolves_lexically (source : Source) (log : Log) :
    (bind (parse source).1 log).1.unlinked = (parse source).1.unlinked ∧
    (∀ n ∈ (bind (parse source).1 log).1.items.flatMap Node.preorder,
      ∃ u, IsPlaceOf (bind (parse source).1 log).1 u ∧ u.node = n) ∧
    ∀ u, IsPlaceOf (bind (parse source).1 log).1 u → ∀ name, u.use? = some name →
      ∀ decl, u.node.resolved = some decl ↔ Denotes name decl u.scopes := by
  obtain ⟨hunlinked, hlinked⟩ := bind_linked (parse source).1 log (parse_properMembers source)
  exact ⟨hunlinked, fun n hn => exists_isPlaceOf hn, fun u hu => hlinked u hu⟩

end Lexical

end BraceLang
