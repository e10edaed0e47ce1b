import BraceLang.Proofs.Grammar.Conduct
import BraceLang.Proofs.Grammar.Termination

/-! The limit on nesting does nothing but refuse. A parser that was refused nothing does the same with a higher
    limit (`Extends`). This is kept by all that the grammar is put together with, since a refusal is never taken
    back: the statement it ends is reported under the code of the refusal, and the log only grows. -/

namespace BraceLang

/-- Nothing is reported as too deeply nested. -/
def Log.Shallow (log : Log) : Prop := ∀ d ∈ log.toList, d.code ≠ some Code.tooDeeplyNested.text

theorem ParseError.code_toDiagnostic (e : ParseError) : e.toDiagnostic.code = some e.cause.code.text :=
  Diagnostic.code_withHelp? _ _

namespace Grammar

variable {α β : Type} {p q : Parser α} {s t : State} {l m : Nat}

theorem Moves.shallow (h : Moves s t) (ht : t.log.Shallow) : s.log.Shallow :=
  fun d hd => ht d (h.log.subset hd)

/-- Nothing was refused for being nested too deeply, neither what was reported nor what was asked for. -/
def Unhindered : Outcome α → Prop
  | .ok _ t => t.log.Shallow
  | .error e t => t.log.Shallow ∧ e.cause.code ≠ .tooDeeplyNested

theorem Unhindered.shallow {o : Outcome α} (h : Unhindered o) : o.stop.log.Shallow := by
  cases o with
  | ok _ _ => exact h
  | error _ _ => exact h.1

theorem Agrees.shallow (h : Agrees s.depth p q) (hs : Unhindered (p s)) : s.log.Shallow :=
  (h s rfl).2.shallow hs.shallow

/-- A statement that could not be read was not refused if its report is not that of a refusal. -/
theorem unhindered_of_report {e : ParseError} (h : Log.Shallow (s.log.push e.toDiagnostic)) :
    Unhindered (.error e s : Outcome α) := by
  refine ⟨(Moves.report s e).shallow h, fun hcode => ?_⟩
  refine h e.toDiagnostic (by simp) ?_
  rw [e.code_toDiagnostic, hcode]

/-- The second parser does the same as the first one wherever that is refused nothing. -/
structure Extends (p q : Parser α) : Prop where
  moves : ∀ depth, Agrees depth p p
  same : ∀ s, Unhindered (p s) → q s = p s

namespace Extends

theorem bind {f g : α → Parser β} (h : Extends p q) (hf : ∀ a, Extends (f a) (g a)) :
    Extends (p >>= f) (q >>= g) where
  moves depth := .bind (h.moves depth) fun a => (hf a).moves depth
  same s hs := by
    cases hrun : p s with
    | ok a t =>
      rw [bind_of_ok hrun] at hs ⊢
      have hsame : q s = p s := h.same s (by rw [hrun]; exact ((hf a).moves t.depth).shallow hs)
      rw [bind_of_ok (hsame.trans hrun), (hf a).same t hs]
    | error e t =>
      rw [bind_of_error hrun] at hs ⊢
      have hsame : q s = p s := h.same s (by rw [hrun]; exact hs)
      rw [bind_of_error (hsame.trans hrun)]

theorem withStructLiterals (allowed : Bool) (h : Extends p q) :
    Extends (withStructLiterals allowed p) (withStructLiterals allowed q) where
  moves depth := .withStructLiterals (h.moves depth)
  same s hs := by
    have hinner : Unhindered (p { s with structLiterals := allowed }) := by
      unfold Grammar.withStructLiterals at hs
      cases hrun : p { s with structLiterals := allowed } <;> rw [hrun] at hs <;> exact hs
    unfold Grammar.withStructLiterals
    rw [h.same _ hinner]

theorem nested (h : Extends p q) : Extends (nested p) (nested q) where
  moves depth := .nested (h.moves (depth + 1))
  same s hs := by
    have hinner : Unhindered (p { s with depth := s.depth + 1 }) := by
      unfold Grammar.nested at hs
      cases hrun : p { s with depth := s.depth + 1 } <;> rw [hrun] at hs <;> exact hs
    unfold Grammar.nested
    rw [h.same _ hinner]

theorem tooDeep : Extends tooDeep q where
  moves _ := .tooDeep
  same _ hs := absurd rfl hs.2

theorem repeating {f g : α → Parser (ForInStep α)} (a : α) (h : ∀ a, Extends (f a) (g a)) :
    Extends (repeating a f) (repeating a g) where
  moves depth := .repeating fun a => (h a).moves depth
  same s hs := by
    show repeatFrom g a s = repeatFrom f a s
    replace hs : Unhindered (repeatFrom f a s) := hs
    fun_induction repeatFrom f a s with
    | case1 a s b t hrun =>
      have hsame : g a s = f a s := (h a).same s (by rw [hrun]; exact hs)
      exact repeatFrom_of_done (hsame.trans hrun)
    | case2 a s b t hrun hlt ih =>
      have hlater : t.log.Shallow := (Agrees.repeatFrom fun a => (h a).moves t.depth).shallow hs
      have hsame : g a s = f a s := (h a).same s (by rw [hrun]; exact hlater)
      exact (repeatFrom_of_yield (hsame.trans hrun) hlt).trans (ih hs)
    | case3 a s b t hrun hge =>
      have hsame : g a s = f a s := (h a).same s (by rw [hrun]; exact hs)
      exact repeatFrom_of_idle (hsame.trans hrun) hge
    | case4 a s e t hrun =>
      have hsame : g a s = f a s := (h a).same s (by rw [hrun]; exact hs)
      exact repeatFrom_of_error (hsame.trans hrun)

/-- An error is reported and the log keeps the report, so what was refused can still be seen. -/
theorem statementStep {p q : Parser Node} (inBlock : Bool) (items : Array Node) (h : Extends p q) :
    Extends (statementStep p inBlock items) (statementStep q inBlock items) where
  moves depth := .statementStep (h.moves depth) inBlock items
  same s hs := by
    simp only [Grammar.statementStep, check_bind] at hs ⊢
    split
    · rfl
    rename_i hgo
    rw [if_neg hgo, get_bind] at hs
    rw [get_bind, get_bind]
    have hsame : q s = p s := by
      refine h.same s ?_
      cases hrun : p s with
      | ok item t =>
        have hattempt : attempt p s = .ok (.ok item) t := by rw [attempt, hrun]
        rwa [bind_of_ok hattempt] at hs
      | error e t =>
        have hattempt : attempt p s = .ok (.error e) t := by rw [attempt, hrun]
        simp only [bind_of_ok hattempt, report_bind] at hs
        exact unhindered_of_report
          (Agrees.shallow (.bind (.synchronize s.remaining inBlock) fun _ => .pure) hs)
    refine bind_congr_run ?_
    rw [attempt, attempt, hsame]

end Extends

/-- Doing the same wherever nothing is refused. -/
def extension : Congruence where
  Rel := Extends
  same h := ⟨h, fun _ _ => rfl⟩
  bind := .bind
  withStructLiterals := .withStructLiterals
  repeating := .repeating
  statementStep := .statementStep

/-- The rules with more levels left do the same wherever those with fewer refuse nothing. -/
theorem Rules.within_extends (h : l ≤ m) : (within l).Related extension (within m) := by
  induction l generalizing m with
  | zero =>
    exact {
      expression := .tooDeep
      type := .tooDeep
      statement := .tooDeep
      block := .tooDeep
      structMember := .tooDeep
      operand := fun _ => .tooDeep
      unary := .tooDeep
      elseIf := .tooDeep }
  | succ l ih =>
    obtain ⟨m, rfl⟩ : ∃ m', m = m' + 1 := Nat.exists_eq_add_one.mpr (by omega)
    exact Congruence.Rel.around (D := extension) .nested (ih (Nat.le_of_succ_le_succ h))

end Grammar

open Grammar

/-- The limit is what the counter of open constructs is compared with before a rule is entered, and it does
    nothing else: a source of which nothing is refused under one limit gives the same program and the same
    reports, in the same order, under every higher one. -/
theorem parseWithin_transparent (source : Source) {l m : Nat} (h : l ≤ m)
    (hshallow : ∀ d ∈ (parseWithin l source).2.toList, d.code ≠ some "E0102") :
    (∀ limit outside, parseWithin limit source =
      programFrom ((Rules.guarded limit)^[limit + 1] outside) source.id
        (State.start (TokenStream.ofSource source))) ∧
    parseWithin m source = parseWithin l source := by
  constructor
  · intro limit outside
    have hagree := (Rules.within_agree_guarded limit outside (limit + 1) 0 (Nat.lt_succ_self _)).related
    rw [Nat.sub_zero] at hagree
    have hsame := (Congruence.Rel.statements hagree.statement false
      (State.start (TokenStream.ofSource source)) rfl).1
    rw [parseWithin, programFrom, programFrom, itemsFrom, itemsFrom, hsame]
  · obtain ⟨items, t, hrun, -, -⟩ := statements_reach_end (Rules.within_read l)
      (State.start (TokenStream.ofSource source))
    have hl : parseWithin l source = (⟨source.id, items, t.nextId⟩, t.log) := by
      rw [parseWithin, programFrom, itemsFrom, hrun]
    have hextends : Extends (statements (Rules.within l).statement false)
        (statements (Rules.within m).statement false) :=
      Congruence.Rel.statements (Rules.within_extends h).statement false
    have hsame := hextends.same (State.start (TokenStream.ofSource source))
      (by rw [hrun]; rwa [hl] at hshallow)
    rw [hl, parseWithin, programFrom, itemsFrom, hsame, hrun]

/-- A stray parenthesis is reported and recovered from; the name between parentheses needs three levels. -/
theorem parseWithin_transparent_parens :
    (parseWithin 3 (Source.ofText 0 "a" ");(x)")).2.toList.length = 1 ∧
    (∀ d ∈ (parseWithin 3 (Source.ofText 0 "a" ");(x)")).2.toList, d.code ≠ some "E0102") ∧
    parseWithin 256 (Source.ofText 0 "a" ");(x)") = parseWithin 3 (Source.ofText 0 "a" ");(x)") := by
  have count : (parseWithin 3 (Source.ofText 0 "a" ");(x)")).2.toList.length = 1 := by decide +kernel
  have h : ∀ d ∈ (parseWithin 3 (Source.ofText 0 "a" ");(x)")).2.toList, d.code ≠ some "E0102" := by
    decide +kernel
  exact ⟨count, h, (parseWithin_transparent _ (by decide) h).2⟩

end BraceLang
