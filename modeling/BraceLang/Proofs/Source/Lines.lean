import BraceLang.Proofs.Source.LineMap
import BraceLang.Proofs.Source.Places

/-! The lines of a source. A piece of the text that begins a line and ends one is its lines, one after
    another (`Source.mapM_lineText?`). The lines that a range touches are such a piece: the range with
    what is behind it on its first line and ahead of it on its last (`Source.coveringLines_eq`). -/

namespace BraceLang

open Text (byteLength)

/-! ### Line starts and line ends -/

/-- Text that ends where a line begins. -/
def Text.StartsLine (head : List Char) : Prop := head = [] ∨ ∃ cs, head = cs ++ ['\n']

/-- Text that begins where a line ends. -/
def Text.EndsLine (rest : List Char) : Prop := rest = [] ∨ ∃ cs, rest = '\n' :: cs

namespace LineMap
open Text

variable {head line rest before after : List Char}

theorem lineStart?_count (before after : List Char) :
    (ofText (before ++ after)).lineStart? (before.count '\n' + 1) = some (lastLineStart before) := by
  have starts : (ofText (before ++ after)).starts =
      (0 :: startsAfter 0 before) ++ startsAfter (byteLength before) after := by
    rw [ofText, startsAfter_append, Nat.zero_add, List.cons_append]
  have last : (0 :: startsAfter 0 before).getLast? = some (lastLineStart before) := by
    rw [← getLastD_startsAfter, List.getLastD_eq_getLast?, List.getLast?_cons, Option.getD_some]
  have start := lineStart?_length starts last
  rwa [List.length_cons, length_startsAfter] at start

theorem lineStop_count (before : List Char) (h : EndsLine rest) :
    (ofText (before ++ rest)).lineStop (byteLength (before ++ rest)) (before.count '\n' + 1) =
      byteLength before := by
  rcases h with rfl | ⟨cs, rfl⟩
  · have none : (ofText (before ++ [])).lineStart? (before.count '\n' + 1 + 1) = none := by
      rw [lineStart?, if_neg (Nat.succ_ne_zero _), ofText, List.getElem?_eq_none_iff, List.length_cons,
        length_startsAfter, List.append_nil]
      exact Nat.le_refl _
    rw [lineStop, none, List.append_nil]
  · have next := lineStart?_count (before ++ ['\n']) cs
    rw [List.count_append, List.count_singleton_self, lastLineStart, List.rdropWhile_concat_neg _ _ _ (by simp),
      byteLength_append, List.append_assoc, List.singleton_append] at next
    rw [lineStop, next]
    exact Nat.add_sub_cancel _ 1

end LineMap

namespace Text

theorem lastLineStart_append {behind : List Char} (head : List Char) (h : '\n' ∉ behind) :
    lastLineStart (head ++ behind) = lastLineStart head := by
  have dropped : ∀ c ∈ behind.reverse, (c != '\n') = true := by
    intro c hc
    refine bne_iff_ne.mpr ?_
    rintro rfl
    exact h (List.mem_reverse.mp hc)
  rw [lastLineStart, List.rdropWhile, List.reverse_append, List.dropWhile_append_of_pos dropped]
  rfl

theorem StartsLine.lastLineStart_eq {head : List Char} (h : StartsLine head) :
    lastLineStart head = byteLength head := by
  rcases h with rfl | ⟨cs, rfl⟩
  · rfl
  · rw [lastLineStart, List.rdropWhile_concat_neg _ _ _ (by simp)]

/-- What is left when the last line is taken off ends where that line begins. -/
theorem startsLine_rdropWhile (cs : List Char) : StartsLine (cs.rdropWhile (· != '\n')) := by
  by_cases h : cs.rdropWhile (· != '\n') = []
  · exact .inl h
  · have last := bne_eq_false_iff_eq.mp (eq_false_of_ne_true (List.rdropWhile_last_not _ _ h))
    have eq := List.dropLast_append_getLast h
    rw [last] at eq
    exact .inr ⟨_, eq.symm⟩

theorem endsLine_dropWhile (cs : List Char) : EndsLine (cs.dropWhile (· != '\n')) := by
  by_cases h : cs.dropWhile (· != '\n') = []
  · exact .inl h
  · have first := bne_eq_false_iff_eq.mp (List.head_dropWhile_not _ h)
    have eq := List.cons_head_tail h
    rw [first] at eq
    exact .inr ⟨_, eq.symm⟩

end Text

namespace Source
open Text

variable {source : Source} {head line piece rest : List Char} {lines : List (List Char)}

/-! ### Lines one after another -/

theorem lineText?_count (h : source.chars = head ++ (line ++ rest)) (hhead : StartsLine head) (hline : '\n' ∉ line)
    (hrest : EndsLine rest) : source.lineText? (head.count '\n' + 1) = some (String.ofList line) := by
  have start : source.lines.lineStart? (head.count '\n' + 1) = some (byteLength head) := by
    rw [source.lines_eq, ← chars, h, LineMap.lineStart?_count, hhead.lastLineStart_eq]
  have stop : source.lines.lineStop source.length (head.count '\n' + 1) = byteLength head + byteLength line := by
    have := LineMap.lineStop_count (head ++ line) hrest
    rw [List.count_append, List.count_eq_zero_of_not_mem hline, Nat.add_zero, byteLength_append head] at this
    rw [source.length_eq, source.lines_eq, ← chars, h, ← List.append_assoc, this]
  rw [lineText?, start, Option.bind_some, stop, slice?, h, slice?_byteLength]
  rfl

theorem mapM_lineText?_lines (hne : lines ≠ []) (h : source.chars = head ++ (['\n'].intercalate lines ++ rest))
    (hhead : StartsLine head) (hlines : ∀ l ∈ lines, '\n' ∉ l) (hrest : EndsLine rest) :
    (List.range' (head.count '\n' + 1) lines.length).mapM source.lineText? = some (lines.map String.ofList) := by
  induction lines generalizing head with
  | nil => exact absurd rfl hne
  | cons l ls ih =>
    obtain ⟨hl, hls⟩ := List.forall_mem_cons.mp hlines
    rw [List.length_cons, List.range'_succ, List.mapM_cons, List.map_cons]
    cases ls with
    | nil =>
      rw [List.intercalate_singleton] at h
      rw [lineText?_count h hhead hl hrest]
      rfl
    | cons l' ls =>
      rw [List.intercalate_cons_cons] at h
      have behind : source.chars = head ++ (l ++ '\n' :: (['\n'].intercalate (l' :: ls) ++ rest)) := by simpa using h
      have ahead : source.chars = (head ++ l ++ ['\n']) ++ (['\n'].intercalate (l' :: ls) ++ rest) := by simpa using h
      have first := lineText?_count behind hhead hl (.inr ⟨_, rfl⟩)
      have others := ih (List.cons_ne_nil _ _) ahead (.inr ⟨_, rfl⟩) hls
      rw [List.count_append, List.count_append, List.count_eq_zero_of_not_mem hl, List.count_singleton_self] at others
      rw [first, others]
      rfl

end Source

/-- A text is its lines, one more than it has line breaks. -/
theorem Text.exists_lines (cs : List Char) : ∃ lines : List (List Char), lines.length = cs.count '\n' + 1 ∧
    ['\n'].intercalate lines = cs ∧ ∀ l ∈ lines, '\n' ∉ l := by
  induction cs with
  | nil => exact ⟨[[]], rfl, rfl, by simp⟩
  | cons c cs ih =>
    obtain ⟨lines, hlength, rfl, hlines⟩ := ih
    obtain ⟨l, ls, rfl⟩ := List.exists_cons_of_length_eq_add_one hlength
    obtain ⟨hl, hls⟩ := List.forall_mem_cons.mp hlines
    by_cases hc : c = '\n'
    · subst hc
      refine ⟨[] :: l :: ls, ?_, ?_, List.forall_mem_cons.mpr ⟨List.not_mem_nil, hlines⟩⟩
      · rw [List.count_cons_self, List.length_cons, hlength]
      · rw [List.intercalate_cons_cons]
        rfl
    · refine ⟨(c :: l) :: ls, ?_, ?_, List.forall_mem_cons.mpr ⟨?_, hls⟩⟩
      · rw [List.count_cons_of_ne hc, ← hlength]
        rfl
      · cases ls with
        | nil => rw [List.intercalate_singleton, List.intercalate_singleton]
        | cons l' ls =>
          rw [List.intercalate_cons_cons, List.intercalate_cons_cons]
          rfl
      · exact List.not_mem_cons_of_ne_of_not_mem (Ne.symm hc) hl

namespace Source
open Text

variable {source : Source} {head behind inside ahead rest before after : List Char}

/-- Text that begins a line and ends one is its lines, one after another. -/
theorem mapM_lineText? {piece : List Char} (h : source.chars = head ++ (piece ++ rest)) (hhead : StartsLine head)
    (hrest : EndsLine rest) : ∃ lines : List String,
      (List.range' (head.count '\n' + 1) (piece.count '\n' + 1)).mapM source.lineText? = some lines ∧
        "\n".intercalate lines = String.ofList piece := by
  obtain ⟨lines, hlength, rfl, hlines⟩ := exists_lines piece
  have hne : lines ≠ [] := List.ne_nil_of_length_eq_add_one hlength
  refine ⟨lines.map String.ofList, ?_, ?_⟩
  · rw [← hlength]
    exact mapM_lineText?_lines hne h hhead hlines hrest
  · refine String.toList_injective ?_
    rw [String.toList_intercalate, List.map_map, String.toList_ofList]
    simp [Function.comp_def]

end Source

/-! ### The lines of a range -/

theorem saturate_count {cs : List Char} (few : cs.count '\n' + 1 < lineLimit) {n : Nat} (h : n ≤ cs.count '\n') :
    saturate (n + 1) = n + 1 :=
  Nat.min_eq_left (Nat.le_trans (Nat.succ_le_succ h) (Nat.le_of_lt few))

/-- A piece of the text of a source, with what is behind it on its first line, what is ahead of it on its
    last line, and the text before and after these lines. -/
structure Source.Touches (source : Source) (head behind inside ahead rest : List Char) : Prop where
  chars : source.chars = head ++ (behind ++ (inside ++ (ahead ++ rest)))
  head : Text.StartsLine head
  behind : '\n' ∉ behind
  ahead : '\n' ∉ ahead
  rest : Text.EndsLine rest

namespace Source.Touches
open Text

variable {source : Source} {head behind inside ahead rest before after : List Char}

theorem exists_of_chars (h : source.chars = before ++ (inside ++ after)) : ∃ head behind ahead rest,
    before = head ++ behind ∧ source.Touches head behind inside ahead rest := by
  refine ⟨before.rdropWhile (· != '\n'), before.rtakeWhile (· != '\n'), after.takeWhile (· != '\n'),
    after.dropWhile (· != '\n'), List.rdropWhile_append_rtakeWhile.symm, ?_, startsLine_rdropWhile before, ?_, ?_,
    endsLine_dropWhile after⟩
  · rw [List.takeWhile_append_dropWhile, ← List.append_assoc, List.rdropWhile_append_rtakeWhile, h]
  · exact fun hmem => absurd (List.mem_rtakeWhile_imp hmem) (by simp)
  · exact fun hmem => absurd (List.mem_takeWhile_imp hmem) (by simp)

variable (h : source.Touches head behind inside ahead rest)
include h

theorem chars_lines : source.chars = head ++ ((behind ++ (inside ++ ahead)) ++ rest) := by
  rw [h.chars]
  simp only [List.append_assoc]

theorem count_lines : (behind ++ (inside ++ ahead)).count '\n' = inside.count '\n' := by
  rw [List.count_append, List.count_append, List.count_eq_zero_of_not_mem h.behind,
    List.count_eq_zero_of_not_mem h.ahead, Nat.zero_add, Nat.add_zero]

theorem count_behind : (head ++ behind).count '\n' = head.count '\n' := by
  rw [List.count_append, List.count_eq_zero_of_not_mem h.behind, Nat.add_zero]

theorem count_le : head.count '\n' + inside.count '\n' ≤ source.chars.count '\n' := by
  rw [h.chars_lines, List.count_append, List.count_append, h.count_lines]
  omega

theorem lineStart?_start : source.lines.lineStart? (head.count '\n' + 1) = some (byteLength head) := by
  rw [source.lines_eq, ← Source.chars, h.chars, LineMap.lineStart?_count, h.head.lastLineStart_eq]

theorem lineStop_stop : source.lines.lineStop source.length (head.count '\n' + inside.count '\n' + 1) =
    byteLength head + byteLength (behind ++ (inside ++ ahead)) := by
  have stop := LineMap.lineStop_count (head ++ (behind ++ (inside ++ ahead))) h.rest
  rw [List.count_append, h.count_lines, byteLength_append head, List.append_assoc] at stop
  rw [source.length_eq, source.lines_eq, ← Source.chars, h.chars_lines, stop]

/-! The range itself, in a text with fewer lines than the limit. -/

theorem range_start (few : source.chars.count '\n' + 1 < lineLimit) (stop : Nat) :
    (source.range (byteLength (head ++ behind)) stop).start =
      ⟨byteLength (head ++ behind), head.count '\n' + 1, saturate (byteLength behind + 1)⟩ := by
  have chars : source.chars = (head ++ behind) ++ (inside ++ (ahead ++ rest)) := by
    rw [h.chars, List.append_assoc]
  have line : saturate (head.count '\n' + 1) = head.count '\n' + 1 :=
    saturate_count few (Nat.le_trans (Nat.le_add_right _ _) h.count_le)
  show source.location (byteLength (head ++ behind)) = _
  rw [location_byteLength chars, h.count_behind, line, lastLineStart_append head h.behind, h.head.lastLineStart_eq,
    byteLength_append, Nat.add_sub_cancel_left]

theorem range_stop (few : source.chars.count '\n' + 1 < lineLimit) :
    (source.range (byteLength (head ++ behind)) (byteLength (head ++ behind ++ inside))).stop.pos =
        byteLength (head ++ behind ++ inside) ∧
      (source.range (byteLength (head ++ behind)) (byteLength (head ++ behind ++ inside))).stop.line =
        head.count '\n' + inside.count '\n' + 1 := by
  have chars : source.chars = (head ++ behind ++ inside) ++ (ahead ++ rest) := by
    rw [h.chars, List.append_assoc, List.append_assoc]
  have ordered : byteLength (head ++ behind) ≤ byteLength (head ++ behind ++ inside) := by
    rw [byteLength_append (head ++ behind)]
    exact Nat.le_add_right _ _
  rw [range, Nat.max_eq_left ordered, location_byteLength chars]
  refine ⟨rfl, ?_⟩
  show saturate _ = _
  rw [List.count_append, h.count_behind, saturate_count few h.count_le]

/-- The lines that a range touches are the range, with what is behind it on its first line and ahead of it on
    its last. -/
theorem coveringLines_eq {r : Range} (first : r.start.line = head.count '\n' + 1)
    (last : r.stop.line = head.count '\n' + inside.count '\n' + 1) :
    source.coveringLines r = String.ofList (behind ++ (inside ++ ahead)) := by
  rw [coveringLines, first, last, h.lineStart?_start, h.lineStop_stop, Option.getD_some,
    Nat.max_eq_left (Nat.le_add_right _ _), slice?, h.chars_lines, slice?_byteLength]
  rfl

theorem slice?_inside : source.slice? (byteLength (head ++ behind)) (byteLength (head ++ behind ++ inside)) =
    some (String.ofList inside) := by
  rw [slice?, h.chars, ← List.append_assoc, byteLength_append (head ++ behind), slice?_byteLength]
  rfl

end Source.Touches

namespace Source
open Text

variable {source : Source}

/-- The text behind a place in a text. -/
theorem chars_of_isValid {p : Nat} (h : (⟨p⟩ : String.Pos.Raw).IsValid source.text) :
    ∃ before after, source.chars = before ++ after ∧ p = byteLength before := by
  obtain ⟨s, t, text, pos⟩ := String.Pos.Raw.isValid_iff_exists_append.mp h
  refine ⟨s.toList, t.toList, ?_, ?_⟩
  · rw [chars, text, String.toList_append]
  · rw [← utf8ByteSize_ofList, String.ofList_toList]
    exact congrArg String.Pos.Raw.byteIdx pos

theorem mapM_lineText?_all (few : source.chars.count '\n' + 1 < lineLimit) : ∃ lines,
    (List.range' 1 source.lines.lineCount).mapM source.lineText? = some lines ∧
      "\n".intercalate lines = source.text := by
  have count : source.lines.lineCount = source.chars.count '\n' + 1 := by
    rw [LineMap.lineCount, source.lines_eq, LineMap.ofText, List.length_cons, LineMap.length_startsAfter]
    exact saturate_count few (Nat.le_refl _)
  have whole : source.chars = [] ++ (source.chars ++ []) := (List.append_nil _).symm
  obtain ⟨lines, texts, joined⟩ := mapM_lineText? whole (.inl rfl) (.inl rfl)
  refine ⟨lines, count ▸ texts, ?_⟩
  rw [joined, chars, String.ofList_toList]

end Source

end BraceLang
