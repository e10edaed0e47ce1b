import BraceLang.Proofs.Binding.Hoisting
import BraceLang.Proofs.Binding.Resolution
import BraceLang.Proofs.Grammar.Identities

/-! The order of functions and types at the top of a program makes no difference when it is bound, as long as
    their names are distinct: each of them is bound between the same declarations wherever it stands
    (`visits_between`), and what they add up to does not depend on their order (`Cost.total_perm`). -/

namespace BraceLang

namespace Binder
open Lexical

/-! ### Costs in another order -/

namespace Cost
variable {γ : Type} {c d : Cost γ} {cs ds : List (Cost γ)}

/-- Two costs are the same but for the order in which things are told. -/
structure Same (c d : Cost γ) : Prop where
  opened : c.opened = d.opened
  closed : c.closed = d.closed
  deepest : c.deepest = d.deepest
  resolved : c.resolved = d.resolved
  told : c.told.Perm d.told

namespace Same

theorem refl (c : Cost γ) : Same c c := ⟨rfl, rfl, rfl, rfl, .refl _⟩

theorem trans {e : Cost γ} (h : Same c d) (h' : Same d e) : Same c e :=
  ⟨h.opened.trans h'.opened, h.closed.trans h'.closed, h.deepest.trans h'.deepest,
    h.resolved.trans h'.resolved, h.told.trans h'.told⟩

theorem plus (b : Cost γ) (h : Same c d) : Same (b.plus c) (b.plus d) :=
  ⟨congrArg (b.opened + ·) h.opened, congrArg (b.closed + ·) h.closed, congrArg (max b.deepest) h.deepest,
    congrArg (b.resolved + ·) h.resolved, h.told.append_left b.told⟩

theorem swap (a b c : Cost γ) : Same (a.plus (b.plus c)) (b.plus (a.plus c)) where
  opened := Nat.add_left_comm _ _ _
  closed := Nat.add_left_comm _ _ _
  deepest := Nat.max_left_comm _ _ _
  resolved := Nat.add_left_comm _ _ _
  told := by
    show (a.told ++ (b.told ++ c.told)).Perm (b.told ++ (a.told ++ c.told))
    rw [← List.append_assoc, ← List.append_assoc]
    exact List.perm_append_comm.append_right c.told

theorem inScope (depth : Nat) (h : Same c d) : Same (c.inScope depth) (d.inScope depth) :=
  ⟨congrArg (· + 1) h.opened, congrArg (· + 1) h.closed, congrArg (max (depth + 1)) h.deepest, h.resolved, h.told⟩

theorem summary (h : Same c d) : c.summary = d.summary := by
  rw [Cost.summary, Cost.summary, h.opened, h.closed, h.deepest, h.resolved, h.told.length_eq]

end Same

def total (cs : List (Cost γ)) : Cost γ := cs.foldr plus nothing

theorem total_perm (h : cs.Perm ds) : (total cs).Same (total ds) := by
  induction h with
  | nil => exact .refl _
  | cons c _ ih => exact ih.plus c
  | swap c d cs => exact .swap d c (total cs)
  | trans _ _ ih ih' => exact ih.trans ih'

end Cost

/-! ### Items in another order -/

/-- A function or type as a parsed program has it. -/
structure IsItem (n : Node) : Prop where
  proper : n.ProperMembers
  unlinked : n.Throughout fun n => n.resolved = none
  formed : n.Throughout fun n => n.shape.WellFormed
  ahead : (ahead? n).isSome

variable {scope : List Introduction} {s : State} {items ns : List Node}

/-- Between the items of a program, each item has its own outcome and its own cost. -/
theorem visits_between (distinct : (scope.map (·.text)).Nodup) (hs : Between scope s) :
    ∃ (bound : Node → Node) (cost : Node → Cost (Option String × Option Range)), ∀ ns : List Node,
      (∀ n ∈ ns, IsItem n) → ∀ t, Between scope t →
        ((ns.map part).mapM visit t).1 = ns.map bound ∧
        Spends Likeness.byName.view t (.total (ns.map cost)) ((ns.map part).mapM visit t).2 := by
  have one (n : Node) : ∃ c, IsItem n → ∀ t, Between scope t →
      Ends Likeness.byName (visit (part n) s) c t (visit (part n) t) := by
    by_cases hn : IsItem n
    · obtain ⟨c, hc⟩ := (mirrors (.refl .plain n) hn.proper Standing.noConfusion).step s
      exact ⟨c, fun _ t ht => (hc t (hs.alike distinct ht)).1⟩
    · exact ⟨.nothing, fun h => absurd h hn⟩
  choose cost hcost using one
  refine ⟨fun n => (visit (part n) s).1, cost, fun ns hns => ?_⟩
  induction ns with
  | nil => exact fun t _ => ⟨rfl, .nothing t⟩
  | cons n ns ih =>
    intro t ht
    obtain ⟨hn, hns⟩ := List.forall_mem_cons.mp hns
    have first := hcost n hn t ht
    obtain ⟨others, hothers⟩ := ih hns _ (ht.whole hn.proper hn.unlinked hn.formed hn.ahead)
    rw [List.map_cons, List.mapM_cons]
    refine ⟨?_, first.spends.trans hothers⟩
    show (visit (part n) t).1 :: ((ns.map part).mapM visit (visit (part n) t).2).1 = _
    rw [first.result, others]
    rfl

/-- In every order of its items, a program has the same items when it was bound, and binding it adds up the
    same costs. -/
theorem bindItems_reordered (hitems : ∀ n ∈ items, IsItem n)
    (distinct : ((items.filterMap ahead?).map (·.text)).Nodup) :
    ∃ (bound : Node → Node) (cost : Node → Cost (Option String × Option Range)), ∀ ns : List Node,
      ns.Perm items → ∀ log,
        (inScope (bindItems ns) (start log)).1 = ns.map bound ∧
        Spends Likeness.byName.view (start log) ((Cost.nothing.plus (.total (ns.map cost))).inScope 0)
          (inScope (bindItems ns) (start log)).2 := by
  -- Once all items are declared, the binder is between them, in whatever order they were.
  have opened (log : Log) : At [] [] [] { start log with scopes := (start log).scopes.push } :=
    ⟨rfl, .empty, ScopeStack.openScopes_push .empty, .empty⟩
  have hoisted (ns : List Node) (perm : ns.Perm items) (log : Log) : Between (items.filterMap ahead?)
      ((ns.map part).forM (fun part => hoist part.1)
        { start log with scopes := (start log).scopes.push }).2 := by
    obtain ⟨order, horder, hat⟩ := Between.hoistAll ns (opened log)
    exact ⟨order, horder.trans (perm.filterMap ahead?), hat⟩
  obtain ⟨bound, cost, hvisits⟩ := visits_between distinct (hoisted items (.refl _) .empty)
  refine ⟨bound, cost, fun ns perm log => ?_⟩
  obtain ⟨hbound, hcost⟩ := hvisits ns (fun n hn => hitems n (perm.mem_iff.mp hn)) _ (hoisted ns perm log)
  have hdistinct : ((([] : List Introduction) ++ ns.filterMap ahead?).map (·.text)).Nodup :=
    (((perm.filterMap ahead?).map _).nodup_iff).mpr distinct
  exact ⟨hbound, ((spends_hoistAll (opened log) hdistinct).trans hcost).inScope⟩

theorem isSome_ahead? (n : Node) : (ahead? n).isSome = (hoistedName? n).isSome := by
  unfold ahead? hoistedName?
  cases n.shape <;> rfl

theorem map_text_ahead? (ns : List Node) :
    (ns.filterMap ahead?).map (·.text) = (ns.filterMap hoistedName?).map (·.text) := by
  have one (n : Node) : (ahead? n).map (·.text) = (hoistedName? n).map (·.text) := by
    unfold ahead? hoistedName?
    cases n.shape <;> rfl
  rw [List.map_filterMap, List.map_filterMap]
  exact congrArg (List.filterMap · ns) (funext one)

/-- Binding keeps the identities of all nodes. -/
theorem bind_ids (p : Program) (log : Log) :
    ((bind p log).1.items.flatMap Node.preorder).map Node.id = (p.items.flatMap Node.preorder).map Node.id := by
  obtain ⟨pairs, before, after, relinks⟩ := bind_relinks p log
  have unlinked : (bind p log).1.items.map Node.unlinked = p.items.map Node.unlinked := by
    rw [before, after, List.map_map, List.map_map]
    exact List.map_congr_left fun p hp => (relinks p hp).unlinked
  have ids (ns : List Node) : ((ns.map Node.unlinked).flatMap Node.preorder).map Node.id =
      (ns.flatMap Node.preorder).map Node.id := by
    rw [Node.flatMap_preorder_unlinked, List.map_map]
    exact List.map_congr_left fun n _ => n.id_unlinked
  rw [← ids, unlinked, ids]

/-- If the items of a program are functions and types with distinct names, their order makes no difference: in
    any order, binding gives the same items, hence the same node under every identity, the same counts, and
    in some order the same diagnostics as far as their codes and places go. -/
theorem bind_reordered (source : Source) (log again : Log) (items : List Node)
    (perm : items.Perm (parse source).1.items)
    (hoisted : ∀ n ∈ (parse source).1.items, (hoistedName? n).isSome)
    (distinct : (((parse source).1.items.filterMap hoistedName?).map (·.text)).Nodup) :
    let reordered : Program := { (parse source).1 with items }
    (bind reordered again).1.items.Perm (bind (parse source).1 log).1.items ∧
    (∀ id, (bind reordered again).1.find? id = (bind (parse source).1 log).1.find? id) ∧
    (bind reordered again).2.2 = (bind (parse source).1 log).2.2 ∧
    ∃ new new' : List Diagnostic,
      (bind (parse source).1 log).2.1 = log.append new ∧ (bind reordered again).2.1 = again.append new' ∧
      (new'.map fun d => (d.code, d.primaryRange?)).Perm (new.map fun d => (d.code, d.primaryRange?)) := by
  intro reordered
  have hitems : ∀ n ∈ (parse source).1.items, IsItem n := fun n hn =>
    ⟨parse_properMembers source n hn, parse_unlinked source n hn, parse_formed source n hn,
      (isSome_ahead? n).trans (hoisted n hn)⟩
  obtain ⟨bound, cost, hbind⟩ := bindItems_reordered hitems (map_text_ahead? _ ▸ distinct)
  obtain ⟨hbound, hspends⟩ := hbind (parse source).1.items (.refl _) log
  obtain ⟨hbound', hspends'⟩ := hbind items perm again
  have same := (((Cost.total_perm (perm.map cost)).plus .nothing).inScope 0)
  have bounds : (bind reordered again).1.items.Perm (bind (parse source).1 log).1.items := by
    rw [bind_eq, bind_eq, hbound, hbound']
    exact perm.map bound
  refine ⟨bounds, fun id => ?_, ?_, ?_⟩
  · rw [Program.find?_eq, Program.find?_eq]
    refine find?_perm Node.id (bounds.flatMap_right Node.preorder) ?_ id
    rw [bind_ids]
    exact (((perm.flatMap_right Node.preorder).map Node.id).nodup_iff).mpr (parse_ids_nodup source)
  · rw [bind_eq, bind_eq, hspends.summary, hspends'.summary, same.summary]
  · obtain ⟨new, hlog, hnew⟩ := hspends.log
    obtain ⟨new', hagain, hnew'⟩ := hspends'.log
    refine ⟨new, new', hlog, hagain, ?_⟩
    show (new'.map Likeness.byName.view).Perm (new.map Likeness.byName.view)
    rw [hnew, hnew']
    exact same.told

theorem bind_reordered_calls :
    let p := (parse (Source.ofText 0 "main" "func f() \x7b g(); \x7d func g() \x7b h(); \x7d")).1
    p.items.length = 2 ∧ (∀ n ∈ p.items, (hoistedName? n).isSome) ∧
    ((p.items.filterMap hoistedName?).map (·.text)).Nodup ∧
    (bind { p with items := p.items.reverse } .empty).1.items.Perm (bind p .empty).1.items ∧
    (bind { p with items := p.items.reverse } .empty).2.2 = (bind p .empty).2.2 := by
  intro p
  have hoisted : ∀ n ∈ p.items, (hoistedName? n).isSome := by decide +kernel
  have distinct : ((p.items.filterMap hoistedName?).map (·.text)).Nodup := by decide +kernel
  obtain ⟨items, -, summary, -⟩ :=
    bind_reordered (Source.ofText 0 "main" "func f() \x7b g(); \x7d func g() \x7b h(); \x7d") .empty .empty
      p.items.reverse (List.reverse_perm _) hoisted distinct
  exact ⟨by decide +kernel, hoisted, distinct, items, summary⟩

end Binder

end BraceLang
