import BraceLang.Proofs.Binding.Coverage.Constructs

/-! Binding a program covers every place of it. So the scopes are balanced: each node that has a scope of its
    own opens it once and closes it again, and as many frames are made as scopes are ever open at once. -/

namespace BraceLang

namespace Binder
open Lexical

theorem Covers.of_walks {α : Type} {m : BindM α} {before between : Scopes} {ps : List Place} {post : α → Prop}
    (h : ∃ after, Covers m before after ps) (walks : Walks m before between post) : Covers m before between ps := by
  obtain ⟨_, covers⟩ := h
  exact ⟨covers.passed, walks.mono fun _ _ => trivial⟩

theorem covered (n : Node) (h : n.ProperMembers) : Covered n := by
  induction n using Node.induct with
  | step n ih =>
    have parts (c : Node) (hc : c ∈ n.children) : Covered c := ih c hc (h.parts hc)
    have own : CoversTree n := by
      by_cases hplain : isPlain n.shape
      · exact coversTree_plain parts hplain
      generalize hn : n.shape = shape at hplain
      cases shape with
      | name => exact coversTree_name hn
      | named => exact coversTree_named parts hn
      | member => exact coversTree_member parts hn (h.member hn)
      | macroName => exact coversTree_macroName parts hn
      | macroCall => exact coversTree_macroCall parts hn
      | returned => exact coversTree_returned parts hn
      | broken => exact coversTree_broken hn
      | continued => exact coversTree_continued hn
      | var => exact coversTree_var parts hn
      | func => exact coversTree_func parts hn
      | closure => exact coversTree_closure parts hn
      | param => exact coversTree_param parts hn
      | generic => exact coversTree_generic parts hn
      | struct => exact coversTree_struct parts hn
      | field => exact coversTree_field parts hn
      | enum => exact coversTree_enum parts hn
      | enumOption => exact coversTree_enumOption parts hn
      | typeAlias => exact coversTree_typeAlias parts hn
      | union => exact coversTree_union parts hn
      | block => exact coversTree_block parts hn
      | ifElse => exact coversTree_ifElse parts hn
      | whileLoop => exact coversTree_whileLoop parts hn
      | forLoop => exact coversTree_forLoop parts hn
      | deferred => exact coversTree_deferred parts hn
      | _ => exact absurd rfl hplain
    have ownAttribute : CoversAttribute n := by
      by_cases hcall : ∃ callee args, n.shape = .call callee args
      · obtain ⟨callee, args, hn⟩ := hcall
        exact coversAttribute_call parts hn
      · exact coversAttribute own fun callee args hn => hcall ⟨callee, args, hn⟩
    -- which scopes are open behind the node is known from the links
    obtain ⟨whole, asAttribute⟩ := binds n h
    have same := passes_eq n
    refine ⟨fun scopes => .of_walks ?_ (whole scopes), fun scopes => .of_walks ?_ (asAttribute scopes)⟩
    · rw [same]
      exact own scopes
    · rw [same]
      exact ownAttribute scopes

/-- The binder on the items of a program, in the scope around them. -/
theorem passed_items {p : Program} (log : Log) (hp : ∀ n ∈ p.items, n.ProperMembers) :
    Passed [[]] (places p) { start log with scopes := ScopeStack.empty.push }
      (bindItems p.items { start log with scopes := ScopeStack.empty.push }).2 :=
  (Covers.visitScope fun n hn => covered n (hp n hn)).passed _

/-- Binding a parsed program opens one scope for the program and one for each node of it that has a scope
    of its own, and closes as many; as many frames are made as scopes are ever open at once. Binding a
    node of it, as such or as an attribute, leaves the depth of the scopes and the constructs to be left
    by jumps as they were, whatever they were. -/
theorem bind_scopes_balanced (source : Source) (log : Log) :
    let nodes := (parse source).1.items.flatMap Node.preorder
    let summary := (bind (parse source).1 log).2.2
    summary.scopesOpened = 1 + nodes.countP Node.opensScope ∧ summary.scopesClosed = summary.scopesOpened ∧
    summary.framesAllocated = summary.maxDepth ∧
    ∀ n ∈ nodes, ∀ s, ((passes n).whole s).2.scopes.depth = s.scopes.depth ∧
      ((passes n).whole s).2.contexts = s.contexts ∧
      ((passes n).asAttribute s).2.scopes.depth = s.scopes.depth ∧
      ((passes n).asAttribute s).2.contexts = s.contexts := by
  intro nodes summary
  have members := parse_properMembers source
  have passed := passed_items log members
  have count : (places (parse source).1).countP (·.node.opensScope) = nodes.countP Node.opensScope := by
    show _ = ((parse source).1.items.flatMap Node.preorder).countP Node.opensScope
    rw [← map_places, List.countP_map]
    rfl
  have opened : summary.scopesOpened = 1 + nodes.countP Node.opensScope := by
    rw [← count]
    exact passed.opened
  have closed : summary.scopesClosed = 0 + nodes.countP Node.opensScope + 1 := by
    rw [← count]
    exact congrArg (· + 1) passed.closed
  refine ⟨opened, by rw [opened, closed]; omega, passed.frames rfl, fun n hn s => ?_⟩
  obtain ⟨item, hitem, hn⟩ := List.mem_flatMap.mp hn
  have cover := covered n ((members item hitem).of_mem_preorder hn)
  exact ⟨((cover.whole []).passed s).depth, ((cover.whole []).passed s).contexts,
    ((cover.asAttribute []).passed s).depth, ((cover.asAttribute []).passed s).contexts⟩

end Binder

end BraceLang
