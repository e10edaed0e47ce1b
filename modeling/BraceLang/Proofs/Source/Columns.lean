import BraceLang.Proofs.Source.Lines

/-! Lines and columns of the places in a source. The line of a place is a line of the text, and its column lies
    in that line or just behind it (`Source.exists_line_of_location`). What a range covers begins with the line of
    its start (`Source.IsLine.coveringLines_later`). -/

namespace BraceLang

open Text

/-! ### Lines by their number -/

/-- A line of a source, without its line break, with the text before and after it. -/
structure Source.IsLine (source : Source) (head line rest : List Char) : Prop where
  chars : source.chars = head ++ (line ++ rest)
  head : StartsLine head
  line : '\n' ∉ line
  rest : EndsLine rest

namespace Source.IsLine
variable {source : Source} {head line rest : List Char}

theorem ofHead {tail : List Char} (h : source.chars = head ++ tail) (hhead : StartsLine head) :
    source.IsLine head (tail.takeWhile (· != '\n')) (tail.dropWhile (· != '\n')) where
  chars := by rw [h, List.takeWhile_append_dropWhile]
  head := hhead
  line hmem := absurd (List.mem_takeWhile_imp hmem) (by simp)
  rest := endsLine_dropWhile tail

/-- The line behind a line. -/
theorem next {tail : List Char} (h : source.IsLine head line ('\n' :: tail)) :
    source.IsLine (head ++ (line ++ ['\n'])) (tail.takeWhile (· != '\n')) (tail.dropWhile (· != '\n')) := by
  refine .ofHead ?_ (.inr ⟨head ++ line, (List.append_assoc _ _ _).symm⟩)
  rw [h.chars]
  simp only [List.append_assoc, List.singleton_append]

theorem exists_count {k : Nat} (h : k ≤ source.chars.count '\n') :
    ∃ head line rest, source.IsLine head line rest ∧ head.count '\n' = k := by
  induction k with
  | zero => exact ⟨_, _, _, .ofHead (List.nil_append _).symm (.inl rfl), List.count_nil⟩
  | succ k ih =>
    obtain ⟨head, line, rest, isLine, count⟩ := ih (Nat.le_of_succ_le h)
    have unbroken : line.count '\n' = 0 := List.count_eq_zero_of_not_mem isLine.line
    rcases isLine.rest with rfl | ⟨tail, rfl⟩
    · rw [isLine.chars, List.append_nil, List.count_append, unbroken, count] at h
      omega
    · refine ⟨_, _, _, isLine.next, ?_⟩
      rw [List.count_append, List.count_append, unbroken, count, List.count_singleton_self]

variable (h : source.IsLine head line rest)
include h

theorem lineText? : source.lineText? (head.count '\n' + 1) = some (String.ofList line) :=
  lineText?_count h.chars h.head h.line h.rest

end Source.IsLine

/-! ### Places on a line -/

theorem Text.count_lineFeed (cs : List Char) : (cs.flatMap String.utf8EncodeChar).count lineFeed = cs.count '\n' := by
  rw [← LineMap.length_startsAfter 0 cs, LineMap.startsAfter_eq_map_idxsOf, List.length_map, List.length_idxsOf]

theorem Text.length_utf8 (cs : List Char) : (cs.flatMap String.utf8EncodeChar).length = byteLength cs := by
  induction cs with
  | nil => rfl
  | cons c cs ih => rw [List.flatMap_cons, List.length_append, String.length_utf8EncodeChar, ih, byteLength_cons]

theorem Text.lineAt_byteLength {text : String} {before after : List Char} (h : text.toList = before ++ after) :
    lineAt text (byteLength before) = before.count '\n' + 1 := by
  rw [lineAt, bytes_eq_flatMap, h, List.flatMap_append, ← length_utf8, List.take_left, count_lineFeed]

theorem Text.lineAt_le (text : String) (offset : Nat) : lineAt text offset ≤ text.toList.count '\n' + 1 := by
  rw [lineAt, ← count_lineFeed, ← bytes_eq_flatMap]
  exact Nat.succ_le_succ ((List.take_sublist _ _).count_le _)

namespace Source
variable {source : Source} {head line rest : List Char}

/-- A place on a line is in it or just behind it. -/
theorem IsLine.columnAt_le (h : source.IsLine head line rest) {pos : Nat} (inside : pos ≤ source.length)
    (on : lineAt source.text pos = head.count '\n' + 1) : columnAt source.text pos ≤ byteLength line + 1 := by
  have start : lineStartAt source.text pos = byteLength head := by
    have start := LineMap.lineStart?_lineAt source.text pos
    rw [on, show source.text.toList = _ from h.chars, LineMap.lineStart?_count, h.head.lastLineStart_eq] at start
    exact (Option.some.inj start).symm
  have before_break : pos ≤ byteLength head + byteLength line := by
    rcases h.rest with rfl | ⟨tail, rfl⟩
    · rwa [source.length_eq, h.chars, List.append_nil, byteLength_append] at inside
    · refine Nat.le_of_not_lt fun behind => ?_
      have later : lineAt source.text (byteLength (head ++ (line ++ ['\n']))) ≤ lineAt source.text pos := by
        refine lineAt_mono source.text ?_
        simp only [byteLength_append]
        exact Nat.add_assoc _ _ _ ▸ behind
      rw [lineAt_byteLength h.next.chars, on, List.count_append, List.count_append, List.count_singleton_self] at later
      omega
  rw [columnAt, start]
  omega

theorem location_eq (source : Source) (pos : Nat) :
    source.location pos = ⟨min pos source.length, saturate (lineAt source.text (min pos source.length)),
      saturate (columnAt source.text (min pos source.length))⟩ := by
  rw [location, source.lines_eq, LineMap.lineColumn_eq]

/-- The line of a place is a line of the text. -/
theorem exists_isLine_of_location (source : Source) (pos : Nat) : ∃ head line rest,
    source.IsLine head line rest ∧ (source.location pos).line = head.count '\n' + 1 := by
  have bounded : (source.location pos).line ≤ source.chars.count '\n' + 1 := by
    rw [location_eq]
    exact Nat.le_trans (Nat.min_le_left _ _) (lineAt_le source.text _)
  have positive : 1 ≤ (source.location pos).line := by
    rw [location_eq]
    exact Nat.le_min.mpr ⟨Nat.le_add_left _ _, by decide⟩
  obtain ⟨k, hk⟩ := Nat.exists_eq_add_of_le' positive
  have few : k ≤ source.chars.count '\n' := by omega
  obtain ⟨head, line, rest, isLine, count⟩ := IsLine.exists_count few
  exact ⟨head, line, rest, isLine, by rw [hk, count]⟩

theorem location_line_mono (source : Source) {pos pos' : Nat} (h : pos ≤ pos') :
    (source.location pos).line ≤ (source.location pos').line := by
  rw [location_eq, location_eq]
  have further : min pos source.length ≤ min pos' source.length := by omega
  have later := lineAt_mono source.text further
  show saturate _ ≤ saturate _
  unfold saturate
  omega

/-- The line of a place is a line of the text. Unless the text has more lines than the limit, the column of the
    place is in that line or just behind it. -/
theorem exists_line_of_location (source : Source) (pos : Nat) : ∃ text,
    source.lineText? (source.location pos).line = some text ∧ '\n' ∉ text.toList ∧
      (lineAt source.text (source.location pos).pos ≤ lineLimit →
        (source.location pos).column ≤ text.utf8ByteSize + 1) := by
  obtain ⟨head, line, rest, isLine, number⟩ := source.exists_isLine_of_location pos
  refine ⟨String.ofList line, ?_, ?_, fun few => ?_⟩
  · rw [number, isLine.lineText?]
  · rw [String.toList_ofList]
    exact isLine.line
  · rw [location_eq] at number few ⊢
    have exact : lineAt source.text (min pos source.length) = head.count '\n' + 1 := by
      rw [← number]
      exact (Nat.min_eq_left few).symm
    rw [utf8ByteSize_ofList]
    exact Nat.le_trans (Nat.min_le_left _ _) (isLine.columnAt_le (Nat.min_le_right _ _) exact)

/-! ### What a range covers -/

namespace IsLine
variable {head' line' rest' : List Char} {r : Range}

theorem lineStart? (h : source.IsLine head line rest) :
    source.lines.lineStart? (head.count '\n' + 1) = some (byteLength head) := by
  rw [source.lines_eq, ← Source.chars, h.chars, LineMap.lineStart?_count, h.head.lastLineStart_eq]

theorem lineStop (h : source.IsLine head line rest) :
    source.lines.lineStop source.length (head.count '\n' + 1) = byteLength head + byteLength line := by
  have stop := LineMap.lineStop_count (head ++ line) h.rest
  rw [List.count_append, List.count_eq_zero_of_not_mem h.line, Nat.add_zero, byteLength_append head,
    List.append_assoc, ← h.chars] at stop
  rw [source.length_eq, source.lines_eq]
  exact stop

/-- A range that stays on its line covers that line. -/
theorem coveringLines_same (h : source.IsLine head line rest) (start : r.start.line = head.count '\n' + 1)
    (stop : r.stop.line = head.count '\n' + 1) : source.coveringLines r = String.ofList line := by
  rw [coveringLines, start, stop, h.lineStart?, h.lineStop, Option.getD_some,
    Nat.max_eq_left (Nat.le_add_right _ _), slice?, h.chars, slice?_byteLength]
  rfl

/-- A later line begins behind the break of an earlier one. -/
theorem later (h : source.IsLine head line rest) (h' : source.IsLine head' line' rest')
    (lt : head.count '\n' < head'.count '\n') : ∃ mid, head' = head ++ (line ++ '\n' :: mid) := by
  have unbroken : line.count '\n' = 0 := List.count_eq_zero_of_not_mem h.line
  have whole : (head ++ line) ++ rest = head' ++ (line' ++ rest') := by
    rw [List.append_assoc, ← h.chars, h'.chars]
  rcases List.append_eq_append_iff.mp whole with ⟨mid, hmid, hrest⟩ | ⟨mid, hmid, -⟩
  · rcases h.rest with rfl | ⟨tail, rfl⟩
    · -- the text has no break left that the later line could begin behind
      obtain ⟨rfl, -⟩ := List.append_eq_nil_iff.mp hrest.symm
      rw [hmid, List.append_nil, List.count_append, unbroken] at lt
      omega
    · cases mid with
      | nil =>
        rw [hmid, List.append_nil, List.count_append, unbroken] at lt
        omega
      | cons c mid =>
        obtain ⟨rfl, -⟩ := List.cons.inj hrest
        exact ⟨mid, by rw [hmid, List.append_assoc]⟩
  · have fewer : head'.count '\n' ≤ head.count '\n' := by
      have := congrArg (List.count '\n') hmid
      rw [List.count_append, List.count_append, unbroken] at this
      omega
    omega

/-- A range that runs on covers the line of its start, the break behind it, and more. -/
theorem coveringLines_later (h : source.IsLine head line rest) (h' : source.IsLine head' line' rest')
    (lt : head.count '\n' < head'.count '\n') (start : r.start.line = head.count '\n' + 1)
    (stop : r.stop.line = head'.count '\n' + 1) :
    ∃ more, source.coveringLines r = String.ofList (line ++ '\n' :: more) := by
  obtain ⟨mid, rfl⟩ := h.later h' lt
  have chars : source.chars = head ++ ((line ++ '\n' :: (mid ++ line')) ++ rest') := by
    rw [h'.chars]
    simp only [List.append_assoc, List.cons_append]
  have last : byteLength (head ++ (line ++ '\n' :: mid)) + byteLength line' =
      byteLength head + byteLength (line ++ '\n' :: (mid ++ line')) := by
    simp only [byteLength_append, byteLength_cons]
    omega
  refine ⟨mid ++ line', ?_⟩
  rw [coveringLines, start, stop, h.lineStart?, h'.lineStop, Option.getD_some, last,
    Nat.max_eq_left (Nat.le_add_right _ _), slice?, chars, slice?_byteLength]
  rfl

end IsLine

end Source

end BraceLang
