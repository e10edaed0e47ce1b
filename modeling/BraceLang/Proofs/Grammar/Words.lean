import BraceLang.Proofs.Grammar.Termination

/-! A program that was parsed without syntax errors has the words of its text: no name or literal is
    lost, repeated or moved on the way from the tokens to the tree. -/

namespace BraceLang

open Grammar

/-- The words among the tokens of a source, in order. -/
def TokenStream.words (stream : TokenStream) : List Word :=
  stream.tokens.filterMap (·.token.word?)

theorem Diagnostic.isSyntax_eq_false {d : Diagnostic}
    (h : d.code ≠ some "E0100" ∧ d.code ≠ some "E0101" ∧ d.code ≠ some "E0102") :
    d.isSyntax = false := by
  simpa [isSyntax, Code.text] using h

/-- Without a syntax error, the names, literals and primitive types of the program are those of the
    tokens, each with its value and in order. -/
theorem parse_keeps_words (source : Source)
    (h : ∀ d ∈ (parse source).2.toList,
      d.code ≠ some "E0100" ∧ d.code ≠ some "E0101" ∧ d.code ≠ some "E0102") :
    (parse source).1.words = (TokenStream.ofSource source).words := by
  obtain ⟨items, t, hrun, hmoves, hahead⟩ := statements_reach_end (Rules.within_read nestingLimit)
    (State.start (TokenStream.ofSource source))
  rw [parse_eq hrun] at h ⊢
  have hquiet : t.complaints = 0 :=
    List.countP_eq_zero.mpr fun d hd => by simp [Diagnostic.isSyntax_eq_false (h d hd)]
  have hstart := hmoves.complaints_le
  have hread := statements_reads (Rules.within_read nestingLimit).statement
    (Rules.within_read nestingLimit).moves hrun
  have hwords := hread.words (TokenStream.ofSource_spoken source) (by omega)
  have hend : t.words = [] := by rw [State.words, hahead, List.filterMap_nil]
  rw [hend, List.append_nil, List.flatMap_map] at hwords
  exact hwords.symm

theorem parse_keeps_words_assignment :
    (∀ d ∈ (parse (Source.ofText 0 "a" "x = 1")).2.toList,
      d.code ≠ some "E0100" ∧ d.code ≠ some "E0101" ∧ d.code ≠ some "E0102") ∧
    (parse (Source.ofText 0 "a" "x = 1")).1.words =
      (TokenStream.ofSource (Source.ofText 0 "a" "x = 1")).words := by
  have quiet : (parse (Source.ofText 0 "a" "x = 1")).2.toList = [] :=
    List.isEmpty_iff.mp (by decide +kernel)
  have h : ∀ d ∈ (parse (Source.ofText 0 "a" "x = 1")).2.toList,
      d.code ≠ some "E0100" ∧ d.code ≠ some "E0101" ∧ d.code ≠ some "E0102" := by
    rw [quiet]
    exact List.forall_mem_nil _
  exact ⟨h, parse_keeps_words _ h⟩

end BraceLang
