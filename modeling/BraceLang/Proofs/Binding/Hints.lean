import BraceLang.Proofs.Binding.Covered

/-! What is suggested for a name that nothing in scope declares. The binder asks for the closest of the names
    that are declared in the open scopes, which are the names in scope at the place of the use
    (`bind_reports_unknown`), inner scopes first and each in the order of declaration. -/

namespace BraceLang

theorem BindCause.help_undefined (name : String) (suggestion : Option String) (range : Range) :
    ((BindCause.undefined name suggestion).diagnostic range).help = suggestion := by
  cases suggestion <;> rfl

namespace Suggestion

theorem question?_eq_some_iff {name words : String} {candidates : List String} :
    question? name candidates = some words ↔
      ∃ closest, FirstNearest name candidates closest ∧ words = s!"did you mean '{closest}'?" := by
  simp only [question?, Option.map_eq_some_iff, closest?_eq_some_iff, @eq_comm _ words]

theorem isSome_question?_iff {name : String} {candidates : List String} :
    (question? name candidates).isSome ↔ ∃ c ∈ candidates, Eligible name c := by
  rw [question?, Option.isSome_map, Option.isSome_iff_ne_none, Ne, closest?_eq_none_iff]
  push Not
  rfl

end Suggestion

namespace Lexical
open Suggestion

theorem mem_visible_iff {scopes : Scopes} {name : String} :
    name ∈ scopes.visible ↔ scopes.findSome? (first? · name) ≠ none := by
  rw [Ne, List.findSome?_eq_none_iff]
  simp [Scopes.visible, first?_eq_none_iff]

/-- What is reported at a place is about the name that is used there. -/
theorem Scopes.unknown?_eq_some {scopes : Scopes} {name : String} {range : Range} {d : Diagnostic}
    (h : scopes.unknown? name range = some d) : name ∉ scopes.visible ∧
      d = (BindCause.undefined name (question? name scopes.visible)).diagnostic range := by
  unfold Scopes.unknown? at h
  split at h
  · cases h
  · rename_i none
    exact ⟨fun mem => mem_visible_iff.mp mem none, (Option.some.inj h).symm⟩

theorem Place.unknown?_eq_some {p : Place} {d : Diagnostic} (h : p.unknown? = some d) :
    ∃ name range, p.use? = some name ∧ p.scopes.unknown? name range = some d ∧
      fault? p.standing p.node = some ((BindCause.undefined name none).finding range) := by
  obtain ⟨standing, scopes, id, range, resolved, shape⟩ := p
  cases shape
  case name text =>
    unfold unknown? at h
    dsimp only at h
    split at h
    · rename_i plain
      exact ⟨text, range, if_pos plain, h, if_pos plain⟩
    · cases h
  case named head path args => exact ⟨head.text, head.range, rfl, h, rfl⟩
  all_goals cases h

end Lexical

namespace Binder
open Lexical Suggestion

/-- What binding logs about unknown names is what there is to report at the places of the program, in their
    order. -/
theorem bind_reports_unknown {p : Program} (log : Log) (hp : ∀ n ∈ p.items, n.ProperMembers) :
    ∃ new, (bind p log).2.1 = log.append new ∧
      new.filter (·.isUndefinedName) = (places p).filterMap Place.unknown? := by
  obtain ⟨new, hlog, names⟩ := (passed_items log hp).log
  exact ⟨new, hlog, names Shows.empty.push⟩

/-- The closest candidate is the first of the nearest that are near enough, and nothing if there is none.
    So a diagnostic about an unknown name, which is about a use of the name where nothing in scope declares
    it, has a help exactly if some name in scope there is near enough, and the help names the one with
    the least number of edits: of several the one of the innermost scope, and there the earliest. -/
theorem bind_suggests_closest (source : Source) (log : Log) :
    (∀ name candidates, closest? name candidates = none ↔ ∀ c ∈ candidates, ¬Eligible name c) ∧
    (∀ name candidates closest,
      closest? name candidates = some closest ↔ FirstNearest name candidates closest) ∧
    ∃ new, (bind (parse source).1 log).2.1 = log.append new ∧
      ∀ d ∈ new, d.code = some Code.undefinedName.text →
        ∃ q name, IsPlaceOf (parse source).1 q ∧ q.use? = some name ∧
          fault? q.standing q.node = some d.finding ∧ name ∉ q.scopes.visible ∧
          (d.help.isSome ↔ ∃ c ∈ q.scopes.visible, Near name c) ∧
          ∀ words, d.help = some words ↔
            ∃ closest, FirstNearest name q.scopes.visible closest ∧ words = s!"did you mean '{closest}'?" := by
  refine ⟨closest?_eq_none_iff, closest?_eq_some_iff, ?_⟩
  obtain ⟨new, hlog, names⟩ := bind_reports_unknown log (parse_properMembers source)
  refine ⟨new, hlog, fun d hd hcode => ?_⟩
  have reported : d ∈ (places (parse source).1).filterMap Place.unknown? := by
    rw [← names, List.mem_filter]
    exact ⟨hd, beq_iff_eq.mpr hcode⟩
  obtain ⟨q, hq, hunknown⟩ := List.mem_filterMap.mp reported
  obtain ⟨name, range, use, unknown, fault⟩ := Place.unknown?_eq_some hunknown
  obtain ⟨absent, rfl⟩ := Scopes.unknown?_eq_some unknown
  refine ⟨q, name, mem_places_iff.mp hq, use, ?_, absent, ?_, fun words => ?_⟩
  · rw [fault, BindCause.diagnostic, BindError.finding_toDiagnostic]
    rfl
  · rw [BindCause.help_undefined, isSome_question?_iff]
    constructor
    · rintro ⟨c, hc, eligible⟩
      exact ⟨c, hc, eligible.1⟩
    · rintro ⟨c, hc, near⟩
      exact ⟨c, hc, near, fun same => absent (same ▸ hc)⟩
  · rw [BindCause.help_undefined, question?_eq_some_iff]

end Binder

end BraceLang
