import BraceLang.Compilation
import BraceLang.Proofs.Binding.Resolution
import BraceLang.Proofs.Binding.Told
import BraceLang.Proofs.Grammar.Conduct.Statements
import BraceLang.Proofs.Grammar.Formation

/-! How far the work on a source goes, and what is counted on the way. The log counts errors and warnings as
    they come in, the binder counts the errors it reports, and a report counts once more what the log holds.
    The log only grows by its own operations, so its counters are right (`Log.Counted`), and the three
    agree. -/

namespace BraceLang

/-! ### Counters -/

/-- The counters of a log are the numbers of errors and warnings in it. -/
structure Log.Counted (log : Log) : Prop where
  errors : log.errors = log.toList.countP (·.severity == .error)
  warnings : log.warnings = log.toList.countP (·.severity == .warning)

namespace Log.Counted
variable {log : Log}

theorem empty : Log.empty.Counted := ⟨rfl, rfl⟩

theorem push (h : log.Counted) (d : Diagnostic) : (log.push d).Counted := by
  constructor
  · rw [toList_push, List.countP_append, List.countP_singleton, ← h.errors, Log.push]
    cases d.severity <;> rfl
  · rw [toList_push, List.countP_append, List.countP_singleton, ← h.warnings, Log.push]
    cases d.severity <;> rfl

theorem append (h : log.Counted) (ds : List Diagnostic) : (log.append ds).Counted := by
  induction ds generalizing log with
  | nil => exact h
  | cons d ds ih => exact ih (h.push d)

/-- A log blocks what comes next exactly when one of its diagnostics is an error. -/
theorem hasErrors_eq_false_iff (h : log.Counted) :
    log.hasErrors = false ↔ ∀ d ∈ log.toList, d.severity ≠ .error := by
  rw [hasErrors, h.errors, decide_eq_false_iff_not, List.countP_pos_iff]
  simp

/-- A log without errors that only errors are added to counts these. -/
theorem errors_append (h : log.Counted) (hclean : log.hasErrors = false) {new : List Diagnostic}
    (hnew : ∀ d ∈ new, d.severity = .error) : (log.append new).errors = new.length := by
  have hzero : log.errors = 0 := Nat.eq_zero_of_not_pos (of_decide_eq_false hclean)
  rw [(h.append new).errors, toList_append, List.countP_append, ← h.errors, hzero, Nat.zero_add,
    List.countP_eq_length]
  exact fun d hd => beq_iff_eq.mpr (hnew d hd)

end Log.Counted

namespace Grammar

theorem State.counted_start (stream : TokenStream) : (State.start stream).log.Counted :=
  .append .empty _

/-- What a parser does to its log keeps the counters right. -/
theorem Effect.counted {s : State} (h : s.log.Counted) (e : Effect) : (e.on s).log.Counted := by
  cases e with
  | take => exact h.append _
  | report e => exact h.push _
  | identify | allow | nest | hold => exact h

theorem State.counted_undergo {s : State} (h : s.log.Counted) (es : List Effect) : (s.undergo es).log.Counted := by
  induction es generalizing s with
  | nil => exact h
  | cons e es ih => exact ih (e.counted h)

end Grammar

open Grammar in
theorem parse_counted (source : Source) : (parse source).2.Counted := by
  obtain ⟨-, t, ⟨es, -, rfl⟩, -, hlog⟩ :=
    parse_conduct (State.within_everywhere (State.start (TokenStream.ofSource source)))
  rw [hlog]
  exact State.counted_undergo (State.counted_start _) es

/-! ### Binding -/

theorem BindError.severity_toDiagnostic (e : BindError) : e.toDiagnostic.severity = .error := by
  rw [toDiagnostic, Diagnostic.severity_withHelp?]
  cases e.range <;> cases e.cause.related? <;> rfl

/-- Binding a parsed source adds errors to the log, and counts them. -/
theorem bind_adds_errors (source : Source) (log : Log) :
    ∃ new, (bind (parse source).1 log).2.1 = log.append new ∧ (∀ d ∈ new, d.severity = .error) ∧
      (bind (parse source).1 log).2.2.errors = new.length := by
  obtain ⟨-, new, hlog, hcount, -, -, herrors⟩ :=
    Lexical.bind_tells log (Lexical.parse_properMembers source) (parse_unlinked source)
  refine ⟨new, hlog, fun d hd => ?_, hcount⟩
  obtain ⟨e, rfl⟩ := herrors d hd
  exact e.severity_toDiagnostic

/-! ### Compilation -/

/-- A source whose parse found an error stops there. -/
theorem compile_of_errors {source : Source} (h : (parse source).2.hasErrors = true) :
    compile source = ⟨(parse source).1, (parse source).2, none, .parse⟩ := if_pos h

theorem compile_of_clean {source : Source} (h : (parse source).2.hasErrors = false) :
    compile source =
      ⟨(bind (parse source).1 (parse source).2).1, (bind (parse source).1 (parse source).2).2.1,
        some (bind (parse source).1 (parse source).2).2.2, .bind⟩ :=
  if_neg (Bool.eq_false_iff.mp h)

theorem compile_phase_iff (source : Source) :
    (compile source).phase = .bind ↔ (parse source).2.hasErrors = false := by
  cases h : (parse source).2.hasErrors with
  | true => simp [compile_of_errors h]
  | false => simp [compile_of_clean h]

theorem compile_counted (source : Source) : (compile source).log.Counted := by
  cases h : (parse source).2.hasErrors with
  | true =>
    rw [compile_of_errors h]
    exact parse_counted source
  | false =>
    obtain ⟨new, hlog, -⟩ := bind_adds_errors source (parse source).2
    rw [compile_of_clean h]
    exact hlog ▸ (parse_counted source).append new

/-- A source is bound exactly when parsing it reported no error, warnings aside. If it is, binding only adds
    errors to the log, and its summary counts all errors there are. If not, the outcome is that of parsing:
    there is no summary, and nothing is linked. In every case the outcome is fine, and is reported as a
    success, exactly when the log has counted no error, and the log has counted what the report counts. -/
theorem compile_phases_agree (source : Source) :
    ((compile source).phase = .bind ↔ ∀ d ∈ (parse source).2.toList, d.severity ≠ .error) ∧
    ((compile source).phase = .bind →
      (∃ new, (compile source).log.toList = (parse source).2.toList ++ new ∧ ∀ d ∈ new, d.severity = .error) ∧
      ∃ summary, (compile source).summary = some summary ∧ summary.errors = (compile source).log.errors) ∧
    ((compile source).phase ≠ .bind →
      (compile source).summary = none ∧ (compile source).log = (parse source).2 ∧
      (compile source).program = (parse source).1 ∧
      ∀ n ∈ (compile source).program.items.flatMap Node.preorder, n.resolved = none) ∧
    ((compile source).isOk = true ↔ (compile source).log.errors = 0) ∧
    (((compile source).report source).success = true ↔ (compile source).log.errors = 0) ∧
    ((compile source).report source).errors = (compile source).log.errors ∧
    ((compile source).report source).warnings = (compile source).log.warnings := by
  have counted := compile_counted source
  have errors : ((compile source).report source).errors = (compile source).log.errors := counted.errors.symm
  refine ⟨?_, ?_, ?_, ?_, ?_, errors, counted.warnings.symm⟩
  · rw [compile_phase_iff, (parse_counted source).hasErrors_eq_false_iff]
  · intro hphase
    have clean := (compile_phase_iff source).mp hphase
    obtain ⟨new, hlog, hnew, hcount⟩ := bind_adds_errors source (parse source).2
    rw [compile_of_clean clean]
    dsimp only
    rw [hlog]
    refine ⟨⟨new, Log.toList_append _ _, hnew⟩, _, rfl, ?_⟩
    rw [hcount, (parse_counted source).errors_append clean hnew]
  · intro hphase
    have failed := Bool.eq_true_of_not_eq_false (mt (compile_phase_iff source).mpr hphase)
    rw [compile_of_errors failed]
    refine ⟨rfl, rfl, rfl, fun n hn => ?_⟩
    obtain ⟨item, hitem, hn⟩ := List.mem_flatMap.mp hn
    exact (parse_unlinked source item hitem).of_mem_preorder hn
  · rw [Compilation.isOk, Log.hasErrors, Bool.not_eq_true', decide_eq_false_iff_not, Nat.pos_iff_ne_zero, not_not]
  · rw [← errors]
    exact beq_iff_eq

end BraceLang
