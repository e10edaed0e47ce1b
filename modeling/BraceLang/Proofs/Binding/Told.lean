import BraceLang.Proofs.Binding.Telling.Scoped

/-! What binding a whole program reports: every complaint about a place of the bound program and every
    redefinition in one of its scopes, once each, and nothing else. -/

namespace BraceLang

namespace Binder
open Lexical

/-- Binding a tree without links, wherever it stands, tells its account. -/
theorem settles (n : Node) (h : n.ProperMembers) (hlinks : n.Throughout fun n => n.resolved = none) :
    Settles n ∧ SettlesAttribute n := by
  induction n using Node.induct with
  | step n ih =>
    obtain ⟨hlink, hparts⟩ := hlinks
    -- A bare name that is left as it is counts as not linked, so it must not come with a link.
    have link (c : Node) (hc : c ∈ n.children) : c.resolved = none := (hparts c hc).here
    have whole (c : Node) (hc : c ∈ n.children) : Settles c := (ih c hc (h.parts hc) (hparts c hc)).1
    have attr (c : Node) (hc : c ∈ n.children) : SettlesAttribute c :=
      (ih c hc (h.parts hc) (hparts c hc)).2
    have own : Settles n := by
      by_cases hplain : isPlain n.shape
      · exact settles_plain hplain whole
      unfold Node.children at whole attr link
      generalize hn : n.shape = shape at whole attr link hplain
      cases shape with
      | name => exact settles_name hn
      | named => exact settles_named hn whole
      | member =>
        exact settles_member hn (whole _ (by simp [Shape.toList])) (h.member hn)
          (link _ (by simp [Shape.toList]))
      | macroName =>
        exact settles_macroName hn (whole _ (by simp [Shape.toList])) (link _ (by simp [Shape.toList]))
      | macroCall =>
        exact settles_macroCall hn (whole _ (by simp [Shape.toList])) (link _ (by simp [Shape.toList]))
          fun c hc => whole c (by simp [Shape.toList, hc])
      | returned => exact settles_returned hn fun c hc => whole c (by simpa [Shape.toList] using hc)
      | broken => exact settles_broken hn
      | continued => exact settles_continued hn
      | var =>
        exact settles_var hn (fun c hc => attr c (by simp [Shape.toList, hc]))
          (fun c hc => whole c (by simp_all [Shape.toList]))
          fun c hc => whole c (by simp_all [Shape.toList])
      | func =>
        exact settles_func hn (fun c hc => attr c (by simp [Shape.toList, hc]))
          (fun c hc => whole c (by simp [Shape.toList, hc])) (whole _ (by simp [Shape.toList]))
          fun c hc => whole c (by simp_all [Shape.toList])
      | closure =>
        exact settles_closure hn (whole _ (by simp [Shape.toList])) (whole _ (by simp [Shape.toList]))
      | param =>
        exact settles_param hn (fun c hc => whole c (by simp_all [Shape.toList]))
          fun c hc => whole c (by simp_all [Shape.toList])
      | generic => exact settles_generic hn whole
      | struct =>
        exact settles_struct hn (fun c hc => attr c (by simp [Shape.toList, hc]))
          (fun c hc => whole c (by simp [Shape.toList, hc]))
          fun c hc => whole c (by simp [Shape.toList, hc])
      | field =>
        exact settles_field hn (fun c hc => attr c (by simp [Shape.toList, hc]))
          (whole _ (by simp [Shape.toList])) fun c hc => whole c (by simp_all [Shape.toList])
      | enum =>
        exact settles_enum hn (fun c hc => attr c (by simp [Shape.toList, hc]))
          (fun c hc => whole c (by simp_all [Shape.toList]))
          fun c hc => whole c (by simp [Shape.toList, hc])
      | enumOption =>
        exact settles_enumOption hn (fun c hc => attr c (by simp [Shape.toList, hc]))
          fun c hc => whole c (by simp_all [Shape.toList])
      | typeAlias =>
        exact settles_typeAlias hn (fun c hc => attr c (by simp [Shape.toList, hc]))
          (fun c hc => whole c (by simp [Shape.toList, hc])) (whole _ (by simp [Shape.toList]))
      | union =>
        exact settles_union hn (fun c hc => attr c (by simp [Shape.toList, hc]))
          (fun c hc => whole c (by simp [Shape.toList, hc]))
          fun c hc => whole c (by simp [Shape.toList, hc])
      | block => exact settles_block hn whole
      | ifElse =>
        exact settles_ifElse hn (whole _ (by simp [Shape.toList])) (whole _ (by simp [Shape.toList]))
          fun c hc => whole c (by simp_all [Shape.toList])
      | whileLoop =>
        exact settles_whileLoop hn (whole _ (by simp [Shape.toList])) (whole _ (by simp [Shape.toList]))
      | forLoop =>
        exact settles_forLoop hn (fun c hc => whole c (by simp_all [Shape.toList]))
          (fun c hc => whole c (by simp_all [Shape.toList]))
          (fun c hc => whole c (by simp_all [Shape.toList])) (whole _ (by simp [Shape.toList]))
      | deferred => exact settles_deferred hn (whole _ (by simp [Shape.toList]))
      | _ => exact absurd rfl hplain
    refine ⟨own, ?_⟩
    by_cases hcall : ∃ callee args, n.shape = .call callee args
    · obtain ⟨callee, args, hn⟩ := hcall
      unfold Node.children at whole link
      rw [hn] at whole link
      exact settlesAttribute_call hn (whole _ (by simp [Shape.toList])) (link _ (by simp [Shape.toList]))
        fun c hc => whole c (by simp [Shape.toList, hc])
    · exact settlesAttribute own hlink fun callee args hn => hcall ⟨callee, args, hn⟩

end Binder

namespace Lexical
open Binder

def redefinitionsIn (p : Program) : List Finding :=
  (scopeContents p).flatMap fun scope => (redefinitions scope).map redefinition

def complaintsIn (p : Program) : List Finding :=
  (places p).flatMap fun q => complaints q.standing q.node

def linksIn (p : Program) : Nat :=
  (p.items.flatMap Node.preorder).countP fun n => n.shape.isNaming && n.resolved.isSome

/-- The account of the items of a program, with the scope around them. -/
theorem accounts_items (p : Program) :
    accounts .plain p.items + redefined (introducedAhead p.items) =
      (↑(complaintsIn p ++ redefinitionsIn p), linksIn p) := by
  have hitems : accounts .plain p.items = ((places p).map fun q => own q.standing q.node).sum := by
    have turn (scopes : Scopes) (ns : List Node) :
        ((inTurn .plain scopes ns).map fun q => account q.standing q.node) = ns.map (account .plain) := by
      induction ns generalizing scopes with
      | nil => rfl
      | cons n ns ih => rw [inTurn, List.map_cons, List.map_cons, ih]
    rw [places, List.map_flatMap, List.flatMap, List.sum_flatten, List.map_map, accounts, ← turn]
    exact congrArg List.sum (List.map_congr_left fun q _ => (sum_own_all q).symm)
  rw [hitems, sum_own, map_places]
  refine Prod.ext ?_ rfl
  simp only [redefined, complaintsIn, redefinitionsIn, scopeContents, Prod.fst_add, List.flatMap_cons,
    ← Multiset.coe_add]
  abel

/-- Binding a program without links links its jumps, and reports every complaint about a place and every
    redefinition once, and each as a binding error. -/
theorem bind_tells {p : Program} (log : Log) (hmembers : ∀ n ∈ p.items, n.ProperMembers)
    (hlinks : ∀ n ∈ p.items, n.Throughout fun n => n.resolved = none) :
    (∀ n ∈ (bind p log).1.items, JumpsLinked [] n) ∧ ∃ new,
      (bind p log).2.1 = log.append new ∧ (bind p log).2.2.errors = new.length ∧
        (bind p log).2.2.resolved = linksIn (bind p log).1 ∧
          (new.map Diagnostic.finding).Perm
            (complaintsIn (bind p log).1 ++ redefinitionsIn (bind p log).1) ∧
              ∀ d ∈ new, ∃ e : BindError, d = e.toDiagnostic := by
  have walk : Tells [] [] ([] ++ introducedAhead p.items) (bindItems p.items) (Settled .plain [] p.items) :=
    .visitScope fun n hn => (settles n (hmembers n hn) (hlinks n hn)).1
  obtain ⟨new, links, told, -, hreports, hsum, hsettled⟩ :=
    walk ⟨log, ScopeStack.empty.push, [], 0, 0⟩ [] ⟨rfl, .empty, ScopeStack.openScopes_push .empty, .empty⟩
  have hitems : (bind p log).1.items =
      (bindItems p.items ⟨log, ScopeStack.empty.push, [], 0, 0⟩).1 := rfl
  rw [← hitems] at hsettled
  have hahead : introducedAhead p.items = introducedAhead (bind p log).1.items := by
    rw [← introducedAhead_unlinked, ← hsettled.unlinked, introducedAhead_unlinked]
  -- The walk leaves the scope around the items open, so its redefinitions are still to be added.
  rw [redefined_nil, add_zero, List.nil_append, hsettled.told, hahead, accounts_items] at hsum
  obtain ⟨hfindings, hcount⟩ := Prod.mk.inj hsum
  have herrors : (bind p log).2.2.errors = 0 + new.length := hreports.errors
  have hresolved : (bind p log).2.2.resolved = 0 + links := hreports.resolved
  refine ⟨hsettled.jumps, new, hreports.log, ?_, ?_, Multiset.coe_eq_coe.mp hfindings, hreports.kinds⟩
  · rw [herrors, Nat.zero_add]
  · rw [hresolved, Nat.zero_add, hcount]

theorem bind_settled {p : Program} (log : Log) (hmembers : ∀ n ∈ p.items, n.ProperMembers)
    (hlinks : ∀ n ∈ p.items, n.Throughout fun n => n.resolved = none) :
    (∀ n ∈ (bind p log).1.items, JumpsLinked [] n) ∧ ∃ new,
      (bind p log).2.1 = log.append new ∧ (bind p log).2.2.errors = new.length ∧
        (bind p log).2.2.resolved = linksIn (bind p log).1 ∧
          (new.map Diagnostic.finding).Perm
            (complaintsIn (bind p log).1 ++ redefinitionsIn (bind p log).1) := by
  obtain ⟨jumps, new, hlog, herrors, hresolved, hperm, -⟩ := bind_tells log hmembers hlinks
  exact ⟨jumps, new, hlog, herrors, hresolved, hperm⟩

end Lexical

end BraceLang
