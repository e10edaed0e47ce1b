import BraceLang.Source.LineMap
import Mathlib.Data.List.DropRight
import Mathlib.Data.Prod.Lex
import Mathlib.Tactic.SplitIfs

/-! The line map against the bytes of a text. A line starts at the beginning of the text and just after
    every byte that is a line break (`LineMap.starts_ofText`), so the map counts the line breaks behind an
    offset and takes the bytes since the last of them as the column, also inside a character and past the
    end of the text. -/

namespace BraceLang

namespace Text

/-- The bytes of a text. -/
def bytes (text : String) : List UInt8 := text.toUTF8.data.toList

/-- The byte that is a line break. -/
def lineFeed : UInt8 := 10

/-- The number of the line that an offset falls on, counted by the line breaks behind it. -/
def lineAt (text : String) (offset : Nat) : Nat := ((bytes text).take offset).count lineFeed + 1

/-- The offset just after the last line break behind an offset, or the beginning of the text. -/
def lineStartAt (text : String) (offset : Nat) : Nat :=
  (((bytes text).take offset).rdropWhile (· != lineFeed)).length

/-- The number of the byte at an offset within its line. -/
def columnAt (text : String) (offset : Nat) : Nat := offset - lineStartAt text offset + 1

variable {text : String}

/-! ### Bytes -/

theorem bytes_eq_flatMap (text : String) : bytes text = text.toList.flatMap String.utf8EncodeChar := by
  rw [bytes, String.toUTF8_eq_toByteArray, ← String.utf8Encode_toList, List.utf8Encode, List.data_toByteArray,
    List.toList_toArray]

/-- A character is one byte below 128, its number, or only bytes from 128 on. -/
theorem utf8EncodeChar_cases (c : Char) :
    (String.utf8EncodeChar c = [UInt8.ofNat c.val.toNat] ∧ c.val.toNat < 128) ∨
      ∀ b ∈ String.utf8EncodeChar c, 128 ≤ b := by
  have high {n : Nat} (hn : 128 ≤ n % 256) : 128 ≤ UInt8.ofNat n := hn
  simp only [String.utf8EncodeChar]
  split_ifs
  · exact .inl ⟨rfl, by omega⟩
  all_goals
    refine .inr ?_
    simp only [List.forall_mem_cons]
  · exact ⟨high (by omega), high (by omega), List.forall_mem_nil _⟩
  · exact ⟨high (by omega), high (by omega), high (by omega), List.forall_mem_nil _⟩
  · exact ⟨high (by omega), high (by omega), high (by omega), high (by omega), List.forall_mem_nil _⟩

/-- A byte below 128 belongs to no character but the one with its number. -/
theorem val_of_mem_utf8EncodeChar {c : Char} {b : UInt8} (h : b ∈ String.utf8EncodeChar c) (hb : b < 128) :
    c.val.toNat = b.toNat := by
  rcases utf8EncodeChar_cases c with ⟨one, small⟩ | high
  · rw [one, List.mem_singleton] at h
    rw [h, UInt8.toNat_ofNat']
    omega
  · exact absurd (high b h) (UInt8.not_le.mpr hb)

/-- No byte of a character but the line break is a line break. -/
theorem lineFeed_not_mem_utf8EncodeChar {c : Char} (h : c ≠ '\n') : lineFeed ∉ String.utf8EncodeChar c := fun hmem =>
  h (Char.ext (UInt32.toNat_inj.mp (val_of_mem_utf8EncodeChar hmem (by decide))))

/-! ### Lines by their bytes -/

theorem lineStartAt_le (text : String) (offset : Nat) : lineStartAt text offset ≤ offset := by
  refine Nat.le_trans (List.rdropWhile_prefix _ _).length_le ?_
  rw [List.length_take]
  exact Nat.min_le_left _ _

theorem lineAt_mono (text : String) {o o' : Nat} (h : o ≤ o') : lineAt text o ≤ lineAt text o' :=
  Nat.succ_le_succ ((List.take_prefix_take_left h).sublist.count_le _)

theorem lineStartAt_add_columnAt (text : String) (offset : Nat) :
    lineStartAt text offset + columnAt text offset - 1 = offset := by
  have := lineStartAt_le text offset
  rw [columnAt]
  omega

end Text

namespace LineMap
open Text

variable {text : String}

theorem startsAfter_eq_map_idxsOf (pos : Nat) (cs : List Char) :
    startsAfter pos cs = ((cs.flatMap String.utf8EncodeChar).idxsOf lineFeed pos).map (· + 1) := by
  induction cs generalizing pos with
  | nil => rfl
  | cons c cs ih =>
    rw [startsAfter, List.flatMap_cons, List.idxsOf_append, List.map_append, String.length_utf8EncodeChar, ih]
    by_cases h : c = '\n'
    · subst h
      rfl
    · have none : (String.utf8EncodeChar c).idxsOf lineFeed pos = [] := by
        refine List.idxsOf_eq_nil_iff.mpr fun b hb => beq_eq_false_iff_ne.mpr ?_
        rintro rfl
        exact lineFeed_not_mem_utf8EncodeChar h hb
      rw [if_neg h, none, List.map_nil, List.nil_append]

/-- The first line starts at the beginning, and each other one just after a line break. -/
theorem starts_ofText (text : String) :
    (ofText text.toList).starts = 0 :: ((bytes text).idxsOf lineFeed).map (· + 1) := by
  rw [ofText, startsAfter_eq_map_idxsOf, bytes_eq_flatMap]

/-- The starts up to an offset are those that the bytes behind it make. -/
theorem starts_split (text : String) (offset : Nat) : ∃ ahead,
    (ofText text.toList).starts =
      (0 :: (((bytes text).take offset).idxsOf lineFeed).map (· + 1)) ++ ahead ∧
      ∀ start ∈ ahead, offset < start := by
  have split : ((bytes text).take offset ++ (bytes text).drop offset).idxsOf lineFeed = _ := List.idxsOf_append
  rw [List.take_append_drop] at split
  refine ⟨_, by rw [starts_ofText, split, List.map_append, List.cons_append], fun start hstart => ?_⟩
  obtain ⟨i, hi, rfl⟩ := List.mem_map.mp hstart
  have from_take := List.ge_of_mem_idxsOf _ hi
  have in_drop := List.lt_add_of_mem_idxsOf _ hi
  rw [List.length_drop, List.length_take] at in_drop
  rw [List.length_take] at from_take
  omega

theorem takeWhile_starts (text : String) (offset : Nat) :
    (ofText text.toList).starts.takeWhile (· ≤ offset) =
      0 :: (((bytes text).take offset).idxsOf lineFeed).map (· + 1) := by
  obtain ⟨ahead, starts, beyond⟩ := starts_split text offset
  have behind : ∀ start ∈ 0 :: (((bytes text).take offset).idxsOf lineFeed).map (· + 1),
      decide (start ≤ offset) = true := by
    refine List.forall_mem_cons.mpr ⟨decide_eq_true (Nat.zero_le _), fun start hstart => ?_⟩
    obtain ⟨i, hi, rfl⟩ := List.mem_map.mp hstart
    have inside := List.lt_add_of_mem_idxsOf _ hi
    rw [List.length_take] at inside
    exact decide_eq_true (by omega)
  have none : ahead.takeWhile (· ≤ offset) = [] := by
    refine List.takeWhile_eq_nil_iff.mpr fun hne hle => ?_
    exact Nat.not_lt.mpr (of_decide_eq_true hle) (beyond _ (List.getElem_mem hne))
  rw [starts, List.takeWhile_append_of_pos behind, none, List.append_nil]

/-- The last of the starts is just after the last line break. -/
theorem getLast?_starts (bs : List UInt8) :
    (0 :: (bs.idxsOf lineFeed).map (· + 1)).getLast? = some (bs.rdropWhile (· != lineFeed)).length := by
  induction bs using List.reverseRecOn with
  | nil => rfl
  | append_singleton bs b ih =>
    rw [List.idxsOf_append, List.map_append, List.rdropWhile_concat, ← List.cons_append]
    by_cases h : b = lineFeed
    · rw [h, List.idxsOf_cons, if_pos (beq_self_eq_true _), List.idxsOf_nil, List.map_singleton,
        List.getLast?_concat]
      simp
    · simpa [h] using ih

theorem lineColumn_eq (text : String) (offset : Nat) :
    (ofText text.toList).lineColumn offset =
      (saturate (lineAt text offset), saturate (columnAt text offset)) := by
  rw [lineColumn, takeWhile_starts, List.getLastD_eq_getLast?, getLast?_starts, List.length_cons, List.length_map,
    List.length_idxsOf]
  rfl

/-- The last of some first starts is that of the line with their number. -/
theorem lineStart?_length {m : LineMap} {begun ahead : List Nat} {start : Nat} (starts : m.starts = begun ++ ahead)
    (last : begun.getLast? = some start) : m.lineStart? begun.length = some start := by
  have positive : 0 < begun.length := List.length_pos_of_mem (List.mem_of_getLast? last)
  rw [lineStart?, if_neg (Nat.ne_of_gt positive), starts,
    List.getElem?_append_left (Nat.sub_lt positive Nat.zero_lt_one), ← List.getLast?_eq_getElem?, last]

theorem lineStart?_lineAt (text : String) (offset : Nat) :
    (ofText text.toList).lineStart? (lineAt text offset) = some (lineStartAt text offset) := by
  obtain ⟨ahead, starts, -⟩ := starts_split text offset
  have start := lineStart?_length starts (getLast?_starts _)
  rw [List.length_cons, List.length_map, List.length_idxsOf] at start
  exact start

/-- Offsets on one line start it at the same place, so further right there means further on. -/
theorem lex_of_lt {o o' : Nat} (h : o < o') :
    Prod.Lex (· < ·) (· < ·) (lineAt text o, columnAt text o) (lineAt text o', columnAt text o') := by
  rcases Nat.lt_or_eq_of_le (lineAt_mono text (Nat.le_of_lt h)) with earlier | same
  · exact Prod.Lex.left _ _ earlier
  · have start : lineStartAt text o = lineStartAt text o' := by
      have := lineStart?_lineAt text o
      rw [same, lineStart?_lineAt] at this
      exact (Option.some.inj this).symm
    rw [same]
    refine Prod.Lex.right _ ?_
    have := lineStartAt_le text o
    rw [columnAt, columnAt, ← start]
    omega

end LineMap

end BraceLang
