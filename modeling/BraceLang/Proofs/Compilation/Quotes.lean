import BraceLang.Proofs.Compilation.Locations
import BraceLang.Proofs.Compilation.Phases
import BraceLang.Proofs.Diagnostic.Rows

/-! The line that a diagnostic quotes. The text for a terminal looks the line up by its number, and the report takes
    the first line of all that the primary range covers. It is the same line, except that the report leaves out a
    carriage return at its end if the range runs on behind it (`compile_quotes_line`). -/

namespace BraceLang

open Text (Json)

/-- A line without a carriage return at its end. -/
def Text.withoutReturn (line : String) : String :=
  if line.toList.getLast? = some '\r' then String.ofList line.toList.dropLast else line

/-! ### The first line of a text -/

namespace Report

variable {line : List Char}

theorem firstLine_unbroken (h : '\n' ∉ line) : firstLine (String.ofList line) = String.ofList line := by
  have whole : line.takeWhile (· != '\n') = line :=
    List.takeWhile_eq_self_iff.mpr fun c hc => bne_iff_ne.mpr fun heq => h (heq ▸ hc)
  rw [firstLine, String.toList_ofList, whole]
  simp

theorem firstLine_broken (h : '\n' ∉ line) (more : List Char) :
    firstLine (String.ofList (line ++ '\n' :: more)) = Text.withoutReturn (String.ofList line) := by
  have first : (line ++ '\n' :: more).takeWhile (· != '\n') = line := by
    have behind : ∀ c ∈ line, (c != '\n') = true := fun c hc => bne_iff_ne.mpr fun heq => h (heq ▸ hc)
    rw [List.takeWhile_append_of_pos behind]
    simp
  rw [firstLine, String.toList_ofList, first, Text.withoutReturn, String.toList_ofList]
  simp

/-- The first line that a range covers is the line of its start, less a carriage return at its end if the range
    runs on behind it. -/
theorem firstLine_coveringLines (source : Source) (start stop : Nat) {r : Range} (h : r = source.range start stop) :
    ∃ line, source.lineText? r.start.line = some line ∧
      firstLine (source.coveringLines r) = if r.start.line < r.stop.line then Text.withoutReturn line else line := by
  obtain ⟨head, line, rest, isLine, first⟩ := source.exists_isLine_of_location start
  obtain ⟨head', line', rest', isLine', last⟩ := source.exists_isLine_of_location (max stop start)
  have ordered := source.location_line_mono (Nat.le_max_right stop start)
  replace first : r.start.line = head.count '\n' + 1 := by rw [h]; exact first
  replace last : r.stop.line = head'.count '\n' + 1 := by rw [h]; exact last
  refine ⟨String.ofList line, by rw [first, isLine.lineText?], ?_⟩
  by_cases runs : r.start.line < r.stop.line
  · obtain ⟨more, covered⟩ := isLine.coveringLines_later isLine' (by omega) first last
    rw [covered, firstLine_broken isLine.line, if_pos runs]
  · have stays : r.stop.line = head.count '\n' + 1 := by
      subst h
      have : (source.range start stop).start.line ≤ (source.range start stop).stop.line := ordered
      omega
    rw [isLine.coveringLines_same first stays, firstLine_unbroken isLine.line, if_neg runs]

end Report

/-! ### The quoted line on a terminal -/

namespace Terminal.Printer

/-- A line that a label starts on is quoted behind a bar. -/
theorem format_quotes (p : Printer) {d : Diagnostic} {line : Nat} (h : line ∈ labelledLines d) : ∃ before after,
    p.format d = before ++ p.bar ++ " " ++ p.source.lineText line ++ "\n" ++ after := by
  obtain ⟨earlier, later, hlines⟩ := List.append_of_mem h
  have row : p.sourceRow (gutter d) line =
      (strong .blue).paint p.colours (padLeft (gutter d + 1) (toString line)) ++ (" " ++ (p.bar ++ (" " ++
        (p.source.lineText line ++ "\n")))) := by
    rw [sourceRow]
    simp only [String.append_assoc]
    rfl
  refine ⟨p.headline d ++ p.place d (gutter d) ++ String.join (earlier.map (p.excerpt d (gutter d))) ++
      (strong .blue).paint p.colours (padLeft (gutter d + 1) (toString line)) ++ " ",
    String.join ((d.labels.filter (·.range.start.line == line)).map (p.marker (gutter d))) ++
      String.join (later.map (p.excerpt d (gutter d))) ++ String.join (d.notes.map (p.remark (gutter d) "note")) ++
      String.join (d.help.toList.map (p.remark (gutter d) "help")), ?_⟩
  rw [format, hlines, List.map_append, List.map_cons, String.join_append, String.join_cons, excerpt, row]
  simp only [String.append_assoc]

end Terminal.Printer

/-- All that the diagnostics of a compiled source mark are pieces of its text. -/
theorem compile_pieces (source : Source) : ∀ d ∈ (compile source).log.toList, d.Within source.pieces := by
  obtain ⟨sound, t, goes, -, hlog⟩ := parse_conduct (.start (TokenStream.ofSource_pieces source))
  have log : ∀ d ∈ (parse source).2.toList, d.Within source.pieces :=
    hlog ▸ (goes.within (.start (TokenStream.ofSource_pieces source))).log
  cases h : (parse source).2.hasErrors with
  | true =>
    rw [compile_of_errors h]
    exact log
  | false =>
    rw [compile_of_clean h]
    exact bind_within (Lexical.parse_properMembers source) (parse_unlinked source) (fun n hn => (sound n hn).located) log

theorem Diagnostic.mem_labels_of_primaryRange? {d : Diagnostic} {r : Range} (h : d.primaryRange? = some r) :
    ∃ l ∈ d.labels, l.range = r := by
  obtain ⟨l, hl, rfl⟩ := Option.map_eq_some_iff.mp h
  rcases Option.or_eq_some_iff.mp hl with hl | ⟨-, hl⟩
  · exact ⟨l, List.mem_of_find?_eq_some hl, rfl⟩
  · exact ⟨l, List.mem_of_head? hl, rfl⟩

/-- A diagnostic of a compiled source that has a primary range is shown with the line that the range starts on, on a
    terminal and in the report. The report leaves out a carriage return at the end of the line if the range runs on
    behind it. -/
theorem compile_quotes_line (source : Source) : ∀ d ∈ (compile source).log.toList, ∀ r, d.primaryRange? = some r →
    ∃ line, source.lineText? r.start.line = some line ∧
      (∀ p : Terminal.Printer, p.source = source → ∃ before after,
        p.format d = before ++ p.bar ++ " " ++ line ++ "\n" ++ after) ∧
      ∃ fields, .obj fields ∈ ((compile source).report source).diagnostics ∧ Report.diagnostic source d = .obj fields ∧
        ("location", .obj (Report.place r.start ++
          [("source_line", .str (if r.start.line < r.stop.line then Text.withoutReturn line else line))])) ∈ fields := by
  intro d hd r hr
  obtain ⟨l, hl, rfl⟩ := d.mem_labels_of_primaryRange? hr
  obtain ⟨before, inside, -, -, piece⟩ : l.range.Piece source := compile_pieces source d hd l hl
  obtain ⟨line, htext, hfirst⟩ := Report.firstLine_coveringLines source _ _ piece
  refine ⟨line, htext, fun p hp => ?_, _, List.mem_map_of_mem hd, rfl, ?_⟩
  · subst hp
    have quoted := p.format_quotes (Terminal.Printer.mem_labelledLines.mpr ⟨l, hl, rfl⟩)
    rwa [Source.lineText, htext, Option.getD_some] at quoted
  · have location : ("location", Report.location source l.range) ∈
        Report.optional "location" (d.primaryRange?.map (Report.location source)) := by
      rw [hr]
      exact List.mem_singleton_self _
    rw [Report.location, hfirst] at location
    simp only [List.mem_append]
    tauto

/-- The options of an enum are missed from its first line to its last. -/
theorem compile_quotes_line_enum : let source := Source.ofText 0 "main.kn" "enum E \x7b\n\x7d"
    ∃ d ∈ (compile source).log.toList, ∃ r, d.primaryRange? = some r ∧
      ∃ fields, Report.diagnostic source d = .obj fields ∧
        ("location", .obj (Report.place r.start ++ [("source_line", .str "enum E \x7b")])) ∈ fields := by
  intro source
  have found : ∃ d ∈ (compile source).log.toList, (d.primaryRange?.any fun r =>
      decide (r.start.line < r.stop.line) && source.lineText? r.start.line == some "enum E \x7b") = true := by
    decide +kernel
  obtain ⟨d, hd, hany⟩ := found
  obtain ⟨r, hr, h⟩ := Option.any_eq_true _ _ |>.mp hany
  obtain ⟨runs, htext⟩ := Bool.and_eq_true_iff.mp h
  obtain ⟨line, hline, -, fields, -, hfields, hmem⟩ := compile_quotes_line source d hd r hr
  obtain rfl : line = "enum E \x7b" := Option.some.inj (hline.symm.trans (beq_iff_eq.mp htext))
  have kept : Text.withoutReturn "enum E \x7b" = "enum E \x7b" := by decide +kernel
  rw [if_pos (of_decide_eq_true runs), kept] at hmem
  exact ⟨d, hd, r, hr, fields, hfields, hmem⟩

/-- A carriage return before the break is in the line but not in the report. -/
theorem compile_quote_without_return : let source := Source.ofText 0 "main.kn" "enum E \x7b\r\n\x7d"
    ∃ d ∈ (compile source).log.toList, ∃ r, d.primaryRange? = some r ∧
      source.lineText? r.start.line = some "enum E \x7b\r" ∧
      Report.location source r = .obj (Report.place r.start ++ [("source_line", .str "enum E \x7b")]) := by
  intro source
  have found : ∃ d ∈ (compile source).log.toList, (d.primaryRange?.any fun r =>
      source.lineText? r.start.line == some "enum E \x7b\r" &&
        Report.firstLine (source.coveringLines r) == "enum E \x7b") = true := by
    decide +kernel
  obtain ⟨d, hd, hany⟩ := found
  obtain ⟨r, hr, h⟩ := Option.any_eq_true _ _ |>.mp hany
  obtain ⟨htext, hfirst⟩ := Bool.and_eq_true_iff.mp h
  refine ⟨d, hd, r, hr, beq_iff_eq.mp htext, ?_⟩
  rw [Report.location, beq_iff_eq.mp hfirst]

end BraceLang
