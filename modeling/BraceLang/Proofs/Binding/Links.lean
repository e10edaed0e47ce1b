import BraceLang.Proofs.Binding.Scoped

/-! Binding is lexical scoping: after a walk over a whole program, every use of a name is linked to the
    declaration that the scopes open at it give, and nothing but links has changed. -/

namespace BraceLang

namespace Binder
open Lexical

/-- Every tree whose members are selected by a name or an index can be bound wherever it stands. -/
theorem binds (n : Node) (h : n.ProperMembers) : Binds n ∧ BindsAttribute n := by
  induction n using Node.induct with
  | step n ih =>
    have whole (c : Node) (hc : c ∈ n.children) : Binds c := (ih c hc (h.parts hc)).1
    have attr (c : Node) (hc : c ∈ n.children) : BindsAttribute c := (ih c hc (h.parts hc)).2
    have own : Binds n := by
      by_cases hplain : isPlain n.shape
      · exact binds_plain hplain whole
      unfold Node.children at whole attr
      generalize hn : n.shape = shape at whole attr hplain
      cases shape with
      | name => exact binds_name hn
      | named => exact binds_named hn whole
      | member =>
        exact binds_member hn (whole _ (by simp [Shape.toList])) (h.member hn)
      | macroName => exact binds_macroName hn (whole _ (by simp [Shape.toList]))
      | macroCall =>
        exact binds_macroCall hn (whole _ (by simp [Shape.toList]))
          fun c hc => whole c (by simp [Shape.toList, hc])
      | returned => exact binds_returned hn fun c hc => whole c (by simpa [Shape.toList] using hc)
      | broken => exact binds_broken hn
      | continued => exact binds_continued hn
      | var =>
        exact binds_var hn (fun c hc => attr c (by simp [Shape.toList, hc]))
          (fun c hc => whole c (by simp_all [Shape.toList]))
          fun c hc => whole c (by simp_all [Shape.toList])
      | func =>
        exact binds_func hn (fun c hc => attr c (by simp [Shape.toList, hc]))
          (fun c hc => whole c (by simp [Shape.toList, hc])) (whole _ (by simp [Shape.toList]))
          fun c hc => whole c (by simp_all [Shape.toList])
      | closure =>
        exact binds_closure hn (whole _ (by simp [Shape.toList])) (whole _ (by simp [Shape.toList]))
      | param =>
        exact binds_param hn (fun c hc => whole c (by simp_all [Shape.toList]))
          fun c hc => whole c (by simp_all [Shape.toList])
      | generic => exact binds_generic hn whole
      | struct =>
        exact binds_struct hn (fun c hc => attr c (by simp [Shape.toList, hc]))
          (fun c hc => whole c (by simp [Shape.toList, hc]))
          fun c hc => whole c (by simp [Shape.toList, hc])
      | field =>
        exact binds_field hn (fun c hc => attr c (by simp [Shape.toList, hc]))
          (whole _ (by simp [Shape.toList])) fun c hc => whole c (by simp_all [Shape.toList])
      | enum =>
        exact binds_enum hn (fun c hc => attr c (by simp [Shape.toList, hc]))
          (fun c hc => whole c (by simp_all [Shape.toList]))
          fun c hc => whole c (by simp [Shape.toList, hc])
      | enumOption =>
        exact binds_enumOption hn (fun c hc => attr c (by simp [Shape.toList, hc]))
          fun c hc => whole c (by simp_all [Shape.toList])
      | typeAlias =>
        exact binds_typeAlias hn (fun c hc => attr c (by simp [Shape.toList, hc]))
          (fun c hc => whole c (by simp [Shape.toList, hc])) (whole _ (by simp [Shape.toList]))
      | union =>
        exact binds_union hn (fun c hc => attr c (by simp [Shape.toList, hc]))
          (fun c hc => whole c (by simp [Shape.toList, hc]))
          fun c hc => whole c (by simp [Shape.toList, hc])
      | block => exact binds_block hn whole
      | ifElse =>
        exact binds_ifElse hn (whole _ (by simp [Shape.toList])) (whole _ (by simp [Shape.toList]))
          fun c hc => whole c (by simp_all [Shape.toList])
      | whileLoop =>
        exact binds_whileLoop hn (whole _ (by simp [Shape.toList])) (whole _ (by simp [Shape.toList]))
      | forLoop =>
        exact binds_forLoop hn (fun c hc => whole c (by simp_all [Shape.toList]))
          (fun c hc => whole c (by simp_all [Shape.toList]))
          (fun c hc => whole c (by simp_all [Shape.toList])) (whole _ (by simp [Shape.toList]))
      | deferred => exact binds_deferred hn (whole _ (by simp [Shape.toList]))
      | _ => exact absurd rfl hplain
    refine ⟨own, ?_⟩
    by_cases hcall : ∃ callee args, n.shape = .call callee args
    · obtain ⟨callee, args, hn⟩ := hcall
      unfold Node.children at whole
      rw [hn] at whole
      exact bindsAttribute_call hn (whole _ (by simp [Shape.toList]))
        fun c hc => whole c (by simp [Shape.toList, hc])
    · exact bindsAttribute own fun callee args hn => hcall ⟨callee, args, hn⟩

end Binder

namespace Lexical

/-- Binding a program changes links only, and links every place as lexical scoping asks. -/
theorem bind_linked (p : Program) (log : Log) (hp : ∀ n ∈ p.items, n.ProperMembers) :
    (bind p log).1.unlinked = p.unlinked ∧ ∀ q, IsPlaceOf (bind p log).1 q → q.Linked := by
  have walk : Binder.Walks (Binder.inScope (Binder.bindItems p.items)) [] []
      (Bound .plain [hoisted p.items] p.items) :=
    .inScope (.visitScope fun n hn => (Binder.binds n (hp n hn)).1)
  have bound := (walk ⟨log, .empty, [], 0, 0⟩ Shows.empty).1
  have items : (bind p log).1.items =
      (Binder.inScope (Binder.bindItems p.items) ⟨log, .empty, [], 0, 0⟩).1 := rfl
  rw [← items] at bound
  constructor
  · show ({ p with items := (bind p log).1.items.map Node.unlinked } : Program) = _
    rw [bound.unlinked]
    rfl
  · rintro q ⟨item, hitem, hreach⟩
    refine bound.linked item ?_ q hreach
    rw [← hoisted_congr bound.unlinked]
    exact hitem

end Lexical

end BraceLang
