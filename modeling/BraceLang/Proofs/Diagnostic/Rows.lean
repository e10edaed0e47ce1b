import BraceLang.Diagnostic.Terminal
import BraceLang.Proofs.Source.Columns
import Mathlib.Data.List.Destutter
import Mathlib.Data.List.Sort

/-! The rows of a diagnostic on a terminal. Every line that a label starts on is quoted once, in the order of the
    lines, and under it stands one marker for each label that starts there (`Printer.format_rows`). All texts
    that are quoted begin in one column of their rows, and a marker that far to the right of its label's column. -/

namespace BraceLang.Terminal.Printer

/-! ### The lines that are quoted -/

section Lines
variable {α : Type} [DecidableEq α]

theorem eraseReps_eq_destutter (l : List α) : l.eraseReps = l.destutter (· ≠ ·) := by
  have loop (l : List α) (a : α) (acc : List α) :
      List.eraseRepsBy.loop (· == ·) a l acc = acc.reverse ++ l.destutter' (· ≠ ·) a := by
    induction l generalizing a acc with
    | nil => simp [List.eraseRepsBy.loop]
    | cons b l ih =>
      by_cases h : a = b
      · simp [List.eraseRepsBy.loop, h, ih]
      · simp [List.eraseRepsBy.loop, h, ih, beq_eq_false_iff_ne.mpr h]
  cases l with
  | nil => rfl
  | cons a l => exact loop l a []

theorem mem_destutter'_ne {x a : α} {l : List α} : x ∈ l.destutter' (· ≠ ·) a ↔ x = a ∨ x ∈ l := by
  induction l generalizing a with
  | nil => simp
  | cons b l ih =>
    by_cases h : a = b
    · simp [h, ih]
    · simp [h, ih]

theorem mem_eraseReps {x : α} {l : List α} : x ∈ l.eraseReps ↔ x ∈ l := by
  rw [eraseReps_eq_destutter]
  cases l with
  | nil => rfl
  | cons a l => rw [List.destutter_cons', mem_destutter'_ne, List.mem_cons]

/-- Without repetitions, numbers in order are in strict order. -/
theorem eraseReps_pairwise {ns : List Nat} (h : ns.Pairwise (· ≤ ·)) : ns.eraseReps.Pairwise (· < ·) := by
  rw [eraseReps_eq_destutter]
  cases ns with
  | nil => exact .nil
  | cons n ns =>
    rw [List.destutter_cons']
    induction ns generalizing n with
    | nil => simp
    | cons m ns ih =>
      obtain ⟨hn, hm⟩ := List.pairwise_cons.mp h
      by_cases same : n = m
      · subst same
        rw [List.destutter'_cons_neg _ (not_not_intro rfl)]
        exact ih n hm
      · rw [List.destutter'_cons_pos _ same]
        refine List.pairwise_cons.mpr ⟨fun x hx => ?_, ih m hm⟩
        have first : n < m := Nat.lt_of_le_of_ne (hn m List.mem_cons_self) same
        rcases mem_destutter'_ne.mp hx with rfl | hx
        · exact first
        · exact Nat.lt_of_lt_of_le first ((List.pairwise_cons.mp hm).1 x hx)

omit [DecidableEq α] in
/-- Taken together by their keys, the items are all there. -/
theorem flatMap_filter_perm {κ : Type} [DecidableEq κ] (key : α → κ) {keys : List κ} (h : keys.Nodup) {items : List α}
    (hkeys : ∀ x ∈ items, key x ∈ keys) :
    (keys.flatMap fun k => items.filter (key · == k)).Perm items := by
  induction keys generalizing items with
  | nil =>
    have none : items = [] := List.eq_nil_iff_forall_not_mem.mpr fun x hx => List.not_mem_nil (hkeys x hx)
    rw [none]
    exact .nil
  | cons k keys ih =>
    obtain ⟨hk, hnodup⟩ := List.nodup_cons.mp h
    have others : ∀ k' ∈ keys, items.filter (key · == k') =
        (items.filter fun x => !key x == k).filter (key · == k') := by
      intro k' hk'
      rw [List.filter_filter]
      refine List.filter_congr fun x _ => ?_
      by_cases hx : key x = k'
      · have : key x ≠ k := fun h => hk (h ▸ hx ▸ hk')
        simp [hx, beq_eq_false_iff_ne.mpr (hx ▸ this)]
      · simp [hx]
    have rest : ∀ x ∈ items.filter (fun x => !key x == k), key x ∈ keys := by
      intro x hx
      obtain ⟨hx, hne⟩ := List.mem_filter.mp hx
      rcases List.mem_cons.mp (hkeys x hx) with heq | hmem
      · simp [heq] at hne
      · exact hmem
    rw [List.flatMap_cons, List.flatMap_congr others]
    exact ((ih hnodup rest).append_left _).trans (List.filter_append_perm _ items)

end Lines

variable {d : Diagnostic} {line : Nat}

theorem mem_labelledLines : line ∈ labelledLines d ↔ ∃ l ∈ d.labels, l.range.start.line = line := by
  rw [labelledLines, mem_eraseReps, List.mem_mergeSort, List.mem_map]

/-- Each line is quoted once, and the lines are in order. -/
theorem labelledLines_pairwise (d : Diagnostic) : (labelledLines d).Pairwise (· < ·) :=
  eraseReps_pairwise List.sortedLE_mergeSort.pairwise

/-- The labels under the lines are the labels of the diagnostic, each once. -/
theorem flatMap_labels_perm (d : Diagnostic) :
    ((labelledLines d).flatMap fun line => d.labels.filter (·.range.start.line == line)).Perm d.labels :=
  flatMap_filter_perm (·.range.start.line) ((labelledLines_pairwise d).imp Nat.ne_of_lt) fun l hl =>
    mem_labelledLines.mpr ⟨l, hl, rfl⟩

/-! ### Widths -/

theorem byteLength_replicate {c : Char} (h : c.utf8Size = 1) (n : Nat) :
    Text.byteLength (List.replicate n c) = n := by
  induction n with
  | zero => rfl
  | succ n ih => rw [List.replicate_succ, Text.byteLength_cons, ih, h, Nat.add_comm]

theorem utf8ByteSize_blanks (n : Nat) : (blanks n).utf8ByteSize = n := by
  rw [blanks, Text.utf8ByteSize_ofList, byteLength_replicate rfl]

theorem byteLength_digits {cs : List Char} (h : ∀ c ∈ cs, c.isDigit = true) : Text.byteLength cs = cs.length := by
  induction cs with
  | nil => rfl
  | cons c cs ih =>
    obtain ⟨hc, hcs⟩ := List.forall_mem_cons.mp h
    have size : c.utf8Size = 1 := by
      simp only [Char.isDigit, Bool.and_eq_true, decide_eq_true_eq] at hc
      exact Char.utf8Size_eq_one_iff.mpr (UInt32.le_trans hc.2 (by decide))
    rw [Text.byteLength_cons, ih hcs, size, List.length_cons, Nat.add_comm]

theorem utf8ByteSize_number (n : Nat) : (toString n).utf8ByteSize = (toString n).length := by
  rw [Nat.toString_eq_repr, Nat.repr_eq_ofList_toDigits, Text.utf8ByteSize_ofList, String.length_ofList]
  exact byteLength_digits fun c hc => Nat.isDigit_of_mem_toDigits (by decide) (by decide) hc

/-- A larger number is no shorter. -/
theorem length_number_mono {m n : Nat} (h : m ≤ n) : (toString m).length ≤ (toString n).length := by
  rw [Nat.toString_eq_repr, Nat.toString_eq_repr]
  have positive : 0 < n.repr.length := Nat.length_repr_pos
  exact (Nat.length_repr_le_iff positive).mpr
    (Nat.lt_of_le_of_lt h ((Nat.length_repr_le_iff positive).mp (Nat.le_refl _)))

theorem two_le_gutter (d : Diagnostic) : 2 ≤ gutter d := by
  unfold gutter
  split
  · exact Nat.le_max_right _ _
  · exact Nat.le_refl _

/-- The numbers of all lines that are quoted fit. -/
theorem length_number_le_gutter (h : line ∈ labelledLines d) : (toString line).length ≤ gutter d := by
  obtain ⟨lines, last, hlines⟩ := List.eq_nil_or_concat' (labelledLines d) |>.resolve_left (List.ne_nil_of_mem h)
  have hlast : (labelledLines d).getLast? = some last := by rw [hlines, List.getLast?_concat]
  have ordered : line ≤ last := by
    rw [hlines] at h
    rcases List.mem_append.mp h with h | h
    · have before := (List.pairwise_append.mp (hlines ▸ labelledLines_pairwise d)).2.2
      exact Nat.le_of_lt (before line h last (List.mem_singleton_self _))
    · exact Nat.le_of_eq (List.mem_singleton.mp h)
  rw [gutter, hlast]
  exact Nat.le_trans (length_number_mono ordered) (Nat.le_max_left _ _)

/-! ### Rows -/

/-- A row that quotes a line: its number and its text, which begins `margin` bytes into the row. -/
def Quotes (source : Source) (margin line : Nat) (row : String) : Prop :=
  ∃ indent text, row = blanks indent ++ toString line ++ " | " ++ text ++ "\n" ∧
    (blanks indent ++ toString line ++ " | ").utf8ByteSize = margin ∧
    source.lineText? line = some text ∧ '\n' ∉ text.toList

/-- A row that marks a label: so many marks, which begin as many bytes behind `margin` as the label begins
    behind the start of its line, and its words. Unless the text has more lines than the limit, the label begins
    in its line or just behind it. -/
def Marks (source : Source) (margin : Nat) (l : Label) (row : String) : Prop :=
  ∃ indent width text, row = blanks indent ++ " | " ++ blanks (l.range.start.column - 1) ++
      String.ofList (List.replicate width (labelStyle l.style).2) ++ " " ++ l.message.getD "" ++ "\n" ∧
    (blanks indent ++ " | ").utf8ByteSize = margin ∧
    source.lineText? l.range.start.line = some text ∧
    width = (if l.range.stop.line = l.range.start.line then max 1 (l.range.stop.column - l.range.start.column)
      else max 1 (text.utf8ByteSize + 1 - l.range.start.column)) ∧
    (Text.lineAt source.text l.range.start.pos ≤ lineLimit → l.range.start.column ≤ text.utf8ByteSize + 1)

variable {p : Printer} {l : Label}

theorem bar_append (text : String) : " " ++ ("|" ++ (" " ++ text)) = " | " ++ text := by
  rw [← String.append_assoc, ← String.append_assoc]
  rfl

theorem sourceRow_plain (off : p.colours = false) (width line : Nat) : p.sourceRow width line =
    padLeft (width + 1) (toString line) ++ " | " ++ p.source.lineText line ++ "\n" := by
  simp only [String.append_assoc]
  rw [← bar_append, sourceRow, bar, off]
  simp only [String.append_assoc]
  rfl

theorem marker_plain (off : p.colours = false) (width : Nat) (l : Label) : p.marker width l =
    blanks (width + 1) ++ " | " ++ blanks (l.range.start.column - 1) ++
      String.ofList (List.replicate (p.markerStop l - l.range.start.column) (labelStyle l.style).2) ++ " " ++
      l.message.getD "" ++ "\n" := by
  simp only [String.append_assoc]
  rw [← bar_append, marker, bar, off]
  simp only [String.append_assoc]
  rfl

theorem quotes_sourceRow (off : p.colours = false) {width line : Nat} {text : String}
    (fits : (toString line).length ≤ width) (htext : p.source.lineText? line = some text) (flat : '\n' ∉ text.toList) :
    Quotes p.source (width + 4) line (p.sourceRow width line) := by
  refine ⟨width + 1 - (toString line).length, text, ?_, ?_, htext, flat⟩
  · rw [sourceRow_plain off, padLeft, Source.lineText, htext, Option.getD_some]
  · rw [String.utf8ByteSize_append, String.utf8ByteSize_append, utf8ByteSize_blanks, utf8ByteSize_number]
    show _ + _ + 3 = _
    omega

theorem marks_marker (off : p.colours = false) {width : Nat} {start stop : Nat}
    (made : l.range = p.source.range start stop) : Marks p.source (width + 4) l (p.marker width l) := by
  obtain ⟨text, htext, -, inside⟩ := p.source.exists_line_of_location start
  have hstart : l.range.start = p.source.location start := by rw [made]; rfl
  rw [← hstart] at htext inside
  refine ⟨width + 1, p.markerStop l - l.range.start.column, text, ?_, ?_, htext, ?_, inside⟩
  · exact marker_plain off width l
  · rw [String.utf8ByteSize_append, utf8ByteSize_blanks]
    rfl
  · rw [markerStop, Source.lineText, htext, Option.getD_some]
    split
    · omega
    · omega

/-- The row that quotes a line, and one row for each label that starts there, in the order of the labels. -/
def rowsOf (p : Printer) (d : Diagnostic) (line : Nat) : List String :=
  p.sourceRow (gutter d) line ::
    (d.labels.filter (·.range.start.line == line)).map (p.marker (gutter d))

theorem join_excerpts (p : Printer) (d : Diagnostic) (lines : List Nat) :
    String.join (lines.map (p.excerpt d (gutter d))) = String.join (lines.flatMap (p.rowsOf d)) := by
  induction lines with
  | nil => rfl
  | cons line lines ih =>
    rw [List.map_cons, String.join_cons, ih, List.flatMap_cons, String.join_append, rowsOf, String.join_cons, excerpt]

end BraceLang.Terminal.Printer
