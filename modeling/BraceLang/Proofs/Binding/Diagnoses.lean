import BraceLang.Proofs.Binding.Contents
import BraceLang.Proofs.Binding.Told
import BraceLang.Proofs.Grammar.Formation

/-! Binding a parsed program accounts for everything once: each use of a name and each jump that is not
    linked, and each declaration of a name that its scope has already. -/

namespace BraceLang

theorem Shape.isSome_jumpCause? {α : Type} (shape : Shape α) : shape.jumpCause?.isSome = shape.isJump := by
  cases shape <;> rfl

namespace Lexical

theorem linked_of_complaintsIn_eq_nil {p : Program} (h : complaintsIn p = []) {q : Place}
    (hq : IsPlaceOf p q) (hneeds : q.use?.isSome ∨ q.node.shape.isJump) : q.node.resolved.isSome := by
  have hquiet : complaints q.standing q.node = [] := List.flatMap_eq_nil_iff.mp h q (mem_places_iff.mpr hq)
  have hfault : (fault? q.standing q.node).isSome := by
    rw [isSome_fault?_iff, Shape.isSome_jumpCause?]
    exact hneeds
  unfold complaints at hquiet
  split at hquiet
  · assumption
  · obtain ⟨finding, hfinding⟩ := Option.isSome_iff_exists.mp hfault
    rw [hfinding] at hquiet
    cases hquiet

/-- What binding a parsed program logs is, in some order, one complaint for each place that uses a name
    or jumps and is linked to nothing, and one redefinition for each declaration of a name in a scope but
    the first, related to the first, which is what the name stands for in that scope. The scopes are those
    that are open at the places of the program. The summary counts what is logged, and the names that are
    linked. So if nothing is logged, every use and every jump is linked. -/
theorem bind_reports_each_once (source : Source) (log : Log) :
    ∃ new : List Diagnostic,
      (bind (parse source).1 log).2.1 = log.append new ∧
      (new.map Diagnostic.finding).Perm
        ((places (bind (parse source).1 log).1).flatMap (fun q => complaints q.standing q.node) ++
          (scopeContents (bind (parse source).1 log).1).flatMap fun scope =>
            (redefinitions scope).map redefinition) ∧
      (∀ scope ∈ scopeContents (bind (parse source).1 log).1, ∀ name,
        (repeats scope name).length = (scope.map (·.text)).count name - 1 ∧
        ∀ p ∈ repeats scope name, firstOf? scope name = some p.1 ∧
          First name p.1.decl (scope.map (·.declaration)) ∧ (redefinition p).related = [p.1.name.range]) ∧
      (∀ q, IsPlaceOf (bind (parse source).1 log).1 q → ∀ scope ∈ q.scopes,
        ∃ contents ∈ scopeContents (bind (parse source).1 log).1,
          scope <+: contents.map (·.declaration)) ∧
      (bind (parse source).1 log).2.2.errors = new.length ∧
      (bind (parse source).1 log).2.2.resolved =
        ((bind (parse source).1 log).1.items.flatMap Node.preorder).countP
          (fun n => n.shape.isNaming && n.resolved.isSome) ∧
      (new = [] → ∀ q, IsPlaceOf (bind (parse source).1 log).1 q →
        q.use?.isSome ∨ q.node.shape.isJump → q.node.resolved.isSome) := by
  obtain ⟨-, new, hlog, herrors, hresolved, hperm⟩ :=
    bind_settled log (parse_properMembers source) (parse_unlinked source)
  refine ⟨new, hlog, hperm, fun scope _ name => ⟨length_repeats, fun p hp => ?_⟩,
    fun q hq => isFilled_of_isPlaceOf hq, herrors, hresolved, fun hquiet q hq hneeds => ?_⟩
  · have hfirst := fst_of_mem_repeats hp
    exact ⟨hfirst, first_of_firstOf? hfirst, rfl⟩
  · rw [hquiet, List.map_nil] at hperm
    have hnone := (List.append_eq_nil_iff.mp (List.nil_perm.mp hperm)).1
    exact linked_of_complaintsIn_eq_nil hnone hq hneeds

end Lexical

end BraceLang
