import BraceLang.Proofs.Source.Columns
import BraceLang.Proofs.Token.Beside
import Mathlib.Algebra.Group.Nat.Even
import Mathlib.Order.Bounds.Defs

/-! Escapes by the parity of backslashes. The scanners of strings and of template text pass a backslash together with
    the character behind it. In the bytes of the text this means that they stop at the first mark that an even number
    of backslashes stands in front of (`Text.First`), and never inside a character. -/

namespace BraceLang

namespace Text

/-- The byte that is a backslash. -/
def backslash : UInt8 := 92

/-- The byte that is the mark of a character below 128. -/
def byteOf (c : Char) : UInt8 := UInt8.ofNat c.val.toNat

/-- No backslash behind a place takes what is ahead: the backslashes that stand there in a row are even in number. -/
def Free (behind : List UInt8) : Prop := Even (behind.rtakeWhile (· == backslash)).length

/-- What begins with one byte of its own, which is no backslash and no part of a longer character. -/
def Marks (P : List UInt8 → Prop) : Prop := ∀ bs, P bs → ∃ b rest, bs = b :: rest ∧ b < 128 ∧ b ≠ backslash

/-- A mark stands at an offset, and no backslash takes it. -/
def FreeAt (P : List UInt8 → Prop) (bs : List UInt8) (i : Nat) : Prop := P (bs.drop i) ∧ Free (bs.take i)

/-- The number of bytes ahead before the first free mark, if there is one. -/
def First (P : List UInt8 → Prop) (behind ahead : List UInt8) : Option Nat → Prop
  | none => ∀ j, ¬FreeAt P (behind ++ ahead) (behind.length + j)
  | some k => FreeAt P (behind ++ ahead) (behind.length + k) ∧
      ∀ j < k, ¬FreeAt P (behind ++ ahead) (behind.length + j)

variable {P : List UInt8 → Prop} {behind ahead bs : List UInt8} {b : UInt8} {c : Char} {o : Option Nat}

/-! ### Backslashes in a row -/

theorem free_nil : Free [] := ⟨0, rfl⟩

theorem free_backslash (behind : List UInt8) : Free (behind ++ [backslash]) ↔ ¬Free behind := by
  rw [Free, Free, List.rtakeWhile_concat_pos (· == backslash) _ _ (beq_self_eq_true _), List.length_append,
    List.length_singleton, Nat.even_add_one]

theorem free_concat (behind : List UInt8) (h : b ≠ backslash) : Free (behind ++ [b]) := by
  rw [Free, List.rtakeWhile_concat_neg _ _ _ (by simpa using h)]
  exact ⟨0, rfl⟩

theorem utf8_backslash : String.utf8EncodeChar '\\' = [backslash] := by decide

theorem backslash_not_mem_utf8 (h : c ≠ '\\') : backslash ∉ String.utf8EncodeChar c := fun hmem =>
  h (Char.ext (UInt32.toNat_inj.mp (val_of_mem_utf8EncodeChar hmem (by decide))))

/-- Behind a character that is no backslash nothing is taken. -/
theorem free_utf8 (behind : List UInt8) (h : c ≠ '\\') : Free (behind ++ String.utf8EncodeChar c) := by
  have nonempty : String.utf8EncodeChar c ≠ [] := String.utf8EncodeChar_ne_nil
  rw [← List.dropLast_append_getLast nonempty, ← List.append_assoc]
  exact free_concat _ fun last => backslash_not_mem_utf8 h (last ▸ List.getLast_mem nonempty)

/-- Behind a character that a backslash takes nothing is taken. -/
theorem free_escape (h : Free behind) (c : Char) : Free (behind ++ backslash :: String.utf8EncodeChar c) := by
  rw [List.append_cons]
  by_cases hc : c = '\\'
  · rw [hc, utf8_backslash, free_backslash, free_backslash]
    exact not_not_intro h
  · exact free_utf8 _ hc

/-! ### The first free mark -/

theorem FreeAt.mark {j : Nat} (h : FreeAt P (behind ++ ahead) (behind.length + j)) : P (ahead.drop j) := by
  have mark := h.1
  rwa [List.drop_length_add_append] at mark

theorem Marks.not_backslash (hP : Marks P) : ¬P (backslash :: ahead) := by
  intro h
  obtain ⟨b, _, heq, -, hb⟩ := hP _ h
  exact hb (List.cons.inj heq).1.symm

theorem First.nil (hP : Marks P) (behind : List UInt8) : First P behind [] none := by
  intro j h
  obtain ⟨b, rest, hdrop, -⟩ := hP _ h.mark
  rw [List.drop_nil] at hdrop
  cases hdrop

/-- The mark is at hand. -/
theorem First.here (h : Free behind) (hP : P ahead) : First P behind ahead (some 0) := by
  refine ⟨⟨?_, ?_⟩, fun j hj => absurd hj (Nat.not_lt_zero j)⟩
  · rwa [Nat.add_zero, List.drop_left]
  · rwa [Nat.add_zero, List.take_left]

/-- Bytes that no free mark begins in are passed. -/
theorem First.pass (h : First P (behind ++ bs) ahead o)
    (unmarked : ∀ j < bs.length, ¬FreeAt P (behind ++ (bs ++ ahead)) (behind.length + j)) :
    First P behind (bs ++ ahead) (o.map (bs.length + ·)) := by
  have shift (j : Nat) : FreeAt P (behind ++ (bs ++ ahead)) (behind.length + (bs.length + j)) ↔
      FreeAt P ((behind ++ bs) ++ ahead) ((behind ++ bs).length + j) := by
    rw [List.append_assoc, List.length_append, Nat.add_assoc]
  have further {j : Nat} (hj : ¬j < bs.length) : ∃ i, j = bs.length + i :=
    Nat.exists_eq_add_of_le (Nat.le_of_not_lt hj)
  cases o with
  | none =>
    intro j
    by_cases hj : j < bs.length
    · exact unmarked j hj
    · obtain ⟨i, rfl⟩ := further hj
      rw [shift]
      exact h i
  | some k =>
    refine ⟨(shift k).mpr h.1, fun j hjk => ?_⟩
    by_cases hj : j < bs.length
    · exact unmarked j hj
    · obtain ⟨i, rfl⟩ := further hj
      rw [shift]
      exact h.2 i (Nat.lt_of_add_lt_add_left hjk)

/-- No mark begins inside a character. -/
theorem not_inside (hP : Marks P) {j : Nat} (positive : 0 < j) (inside : j < (String.utf8EncodeChar c).length) :
    ¬P ((String.utf8EncodeChar c ++ ahead).drop j) := by
  intro h
  obtain ⟨b, rest, hdrop, hsmall, -⟩ := hP _ h
  rcases utf8EncodeChar_cases c with ⟨one, -⟩ | high
  · rw [one, List.length_singleton] at inside
    omega
  · have mem : b ∈ String.utf8EncodeChar c := by
      rw [List.drop_append_of_le_length (Nat.le_of_lt inside)] at hdrop
      have head : ((String.utf8EncodeChar c).drop j).head? = some b := by
        have := congrArg List.head? hdrop
        rwa [List.head?_append_of_ne_nil _ (by simpa using inside), List.head?_cons] at this
      exact List.mem_of_mem_drop (List.mem_of_head? head)
    exact UInt8.not_le.mpr hsmall (high b mem)

/-- A character that no mark begins with is passed. -/
theorem First.pass_char (behind : List UInt8) (hP : Marks P) (hc : c ≠ '\\') (hhead : ¬P (String.utf8EncodeChar c ++ ahead))
    (rest : ∀ behind, Free behind → First P behind ahead o) :
    First P behind (String.utf8EncodeChar c ++ ahead) (o.map (byteLength [c] + ·)) := by
  rw [byteLength_cons, byteLength_nil, Nat.add_zero, ← String.length_utf8EncodeChar]
  refine .pass (rest _ (free_utf8 behind hc)) fun j hj h => ?_
  cases j with
  | zero => exact hhead h.mark
  | succ j => exact not_inside hP (Nat.succ_pos j) hj h.mark

/-- A backslash is passed together with the character it takes. -/
theorem First.pass_escape (hP : Marks P) (free : Free behind) (c : Char)
    (rest : ∀ behind, Free behind → First P behind ahead o) :
    First P behind (backslash :: (String.utf8EncodeChar c ++ ahead)) (o.map (byteLength ['\\', c] + ·)) := by
  have size : byteLength ['\\', c] = (backslash :: String.utf8EncodeChar c).length := by
    rw [List.length_cons, String.length_utf8EncodeChar, Nat.add_comm]
    rfl
  rw [size, ← List.cons_append]
  refine .pass (rest _ (free_escape free c)) fun j hj h => ?_
  match j with
  | 0 => exact hP.not_backslash h.mark
  | 1 =>
    have taken := h.2
    rw [List.take_length_add_append] at taken
    exact (free_backslash behind).mp taken free
  | j + 2 => exact not_inside hP (Nat.succ_pos j) (Nat.lt_of_succ_lt_succ hj) h.mark

/-- A backslash with nothing behind it is passed alone. -/
theorem First.pass_last (hP : Marks P) (behind : List UInt8) : First P behind [backslash] none := by
  have nothing : First P (behind ++ [backslash]) [] none := .nil hP _
  refine nothing.pass fun j hj h => ?_
  obtain rfl : j = 0 := Nat.lt_one_iff.mp hj
  exact hP.not_backslash h.mark

/-! ### The marks -/

theorem utf8_byteOf {mark : Char} (small : mark.val.toNat < 128) : String.utf8EncodeChar mark = [byteOf mark] := by
  rw [String.utf8EncodeChar]
  exact if_pos (Nat.le_of_lt_succ small)

theorem toNat_byteOf {mark : Char} (small : mark.val.toNat < 128) : (byteOf mark).toNat = mark.val.toNat := by
  rw [byteOf, UInt8.toNat_ofNat']
  omega

theorem byteOf_lt {mark : Char} (small : mark.val.toNat < 128) : byteOf mark < 128 := by
  rw [UInt8.lt_iff_toNat_lt, toNat_byteOf small]
  exact small

/-- Bytes begin with a mark if the characters do. -/
theorem eq_of_begins {mark : Char} (small : mark.val.toNat < 128)
    (h : (String.utf8EncodeChar c ++ ahead)[0]? = some (byteOf mark)) : c = mark := by
  have mem : byteOf mark ∈ String.utf8EncodeChar c := by
    rw [← List.head?_eq_getElem?, List.head?_append_of_ne_nil _ String.utf8EncodeChar_ne_nil] at h
    exact List.mem_of_head? h
  have val := val_of_mem_utf8EncodeChar mem (byteOf_lt small)
  rw [toNat_byteOf small] at val
  exact Char.ext (UInt32.toNat_inj.mp val)

/-- A mark that is one byte. -/
def BeginsWith (mark : Char) (bs : List UInt8) : Prop := bs[0]? = some (byteOf mark)

/-- A backtick, or a dollar sign with a brace behind it. -/
def EndsSegment (bs : List UInt8) : Prop :=
  bs[0]? = some (byteOf '\x60') ∨ bs[0]? = some (byteOf '$') ∧ bs[1]? = some (byteOf '\x7b')

theorem exists_cons_of_begins {mark : Char} (small : mark.val.toNat < 128) (ne : byteOf mark ≠ backslash)
    (h : bs[0]? = some (byteOf mark)) : ∃ b rest, bs = b :: rest ∧ b < 128 ∧ b ≠ backslash := by
  obtain ⟨rest, rfl⟩ := List.head?_eq_some_iff.mp (List.head?_eq_getElem? ▸ h)
  exact ⟨_, rest, rfl, byteOf_lt small, ne⟩

theorem marks_beginsWith {mark : Char} (small : mark.val.toNat < 128) (ne : byteOf mark ≠ backslash) :
    Marks (BeginsWith mark) := fun _ h => exists_cons_of_begins small ne h

theorem marks_endsSegment : Marks EndsSegment := by
  rintro bs (h | ⟨h, -⟩)
  · exact exists_cons_of_begins (by decide) (by decide) h
  · exact exists_cons_of_begins (by decide) (by decide) h

end Text

open Text

/-! ### The scanners -/

theorem byteLength_take_append (as cs : List Char) (n : Nat) :
    byteLength ((as ++ cs).take (n + as.length)) = byteLength as + byteLength (cs.take n) := by
  rw [Nat.add_comm, List.take_length_add_append, byteLength_append]

theorem map_offsets (as cs : List Char) (o : Option Nat) :
    ((o.map (· + as.length)).map fun n => byteLength ((as ++ cs).take n)) =
      (o.map fun n => byteLength (cs.take n)).map (byteLength as + ·) := by
  cases o with
  | none => rfl
  | some n => exact congrArg some (byteLength_take_append as cs n)

theorem unescapedLength?_first {mark : Char} (small : mark.val.toNat < 128) (ne : byteOf mark ≠ backslash)
    (cs : List Char) : ∀ behind, Free behind → First (BeginsWith mark) behind (cs.flatMap String.utf8EncodeChar)
      ((unescapedLength? mark cs).map fun n => byteLength (cs.take n)) := by
  have marks := marks_beginsWith small ne
  fun_induction unescapedLength? mark cs with
  | case1 => exact fun behind _ => .nil marks behind
  | case2 => exact fun behind _ => .pass_last marks behind
  | case3 c cs ih =>
    intro behind free
    have passed := First.pass_escape marks free c ih
    rwa [← map_offsets] at passed
  | case4 cs hlast hescape =>
    intro behind free
    refine .here free ?_
    rw [List.flatMap_cons, utf8_byteOf small]
    rfl
  | case5 c cs hlast hescape hne ih =>
    intro behind _
    have other : ¬BeginsWith mark (String.utf8EncodeChar c ++ cs.flatMap String.utf8EncodeChar) := fun begins =>
      hne (eq_of_begins small begins)
    have passed := First.pass_char behind marks (ne_backslash hlast hescape) other ih
    rwa [← map_offsets] at passed

/-- The offset in bytes at which a segment ends, if it does not end with the whole text. -/
def segmentStop? (cs : List Char) (found : Nat × SegmentEnd) : Option Nat :=
  if found.2 = .input then none else some (byteLength (cs.take found.1))

theorem segmentStop?_append (as cs : List Char) (found : Nat × SegmentEnd) :
    segmentStop? (as ++ cs) (found.1 + as.length, found.2) = (segmentStop? cs found).map (byteLength as + ·) := by
  by_cases h : found.2 = .input
  · rw [segmentStop?, segmentStop?, if_pos h, if_pos h, Option.map_none]
  · rw [segmentStop?, segmentStop?, if_neg h, if_neg h, Option.map_some, byteLength_take_append]

theorem segmentLength_first (cs : List Char) : ∀ behind, Free behind →
    First EndsSegment behind (cs.flatMap String.utf8EncodeChar) (segmentStop? cs (segmentLength cs)) := by
  fun_induction segmentLength cs with
  | case1 => exact fun behind _ => .nil marks_endsSegment behind
  | case2 => exact fun behind _ => .pass_last marks_endsSegment behind
  | case3 c cs n stop hrest ih =>
    intro behind free
    rw [hrest] at ih
    have passed := First.pass_escape marks_endsSegment free c ih
    rwa [← segmentStop?_append] at passed
  | case4 cs => exact fun behind free => .here free (.inl rfl)
  | case5 cs => exact fun behind free => .here free (.inr ⟨rfl, rfl⟩)
  | case6 c cs hlast hescape hb hd n stop hrest ih =>
    intro behind _
    rw [hrest] at ih
    have other : ¬EndsSegment (String.utf8EncodeChar c ++ cs.flatMap String.utf8EncodeChar) := by
      rintro (backtick | ⟨dollar, brace⟩)
      · exact hb (eq_of_begins (by decide) backtick)
      · obtain rfl : c = '$' := eq_of_begins (by decide) dollar
        rw [utf8_byteOf (by decide), List.singleton_append, List.getElem?_cons_succ] at brace
        cases cs with
        | nil => cases brace
        | cons d ds => exact hd ds rfl (congrArg (· :: ds) (eq_of_begins (by decide) brace))
    have passed := First.pass_char behind marks_endsSegment (ne_backslash hlast hescape) other ih
    rwa [← segmentStop?_append] at passed

/-! ### The first free mark of a text -/

section Whole
variable {P : List UInt8 → Prop} {text : String} {c : Char}

theorem Text.First.none_iff {o : Option Nat} (h : First P [] (bytes text) o) :
    o = none ↔ ∀ i, ¬FreeAt P (bytes text) i := by
  cases o with
  | none =>
    refine ⟨fun _ i => ?_, fun _ => rfl⟩
    have nowhere := h i
    rwa [List.nil_append, List.length_nil, Nat.zero_add] at nowhere
  | some k =>
    have found := h.1
    rw [List.nil_append, List.length_nil, Nat.zero_add] at found
    exact ⟨fun h => absurd h (Option.some_ne_none k), fun nowhere => absurd found (nowhere k)⟩

theorem Text.First.isLeast {k : Nat} (h : First P [] (bytes text) (some k)) :
    IsLeast {i | FreeAt P (bytes text) i} k := by
  obtain ⟨found, before⟩ := h
  rw [List.nil_append, List.length_nil, Nat.zero_add] at found
  refine ⟨found, fun i hi => Nat.le_of_not_lt fun hlt => before i hlt ?_⟩
  rwa [List.nil_append, List.length_nil, Nat.zero_add]

/-- The place behind some first characters. -/
theorem Text.isValid_take (text : String) (n : Nat) :
    (⟨byteLength (text.toList.take n)⟩ : String.Pos.Raw).IsValid text := by
  refine String.Pos.Raw.isValid_iff_exists_append.mpr
    ⟨String.ofList (text.toList.take n), String.ofList (text.toList.drop n), ?_, ?_⟩
  · rw [← String.ofList_append, List.take_append_drop, String.ofList_toList]
  · exact congrArg String.Pos.Raw.mk (utf8ByteSize_ofList _).symm

theorem Text.byte_at {before after : List Char} (small : c.val.toNat < 128)
    (h : text.toList = before ++ c :: after) : (bytes text)[byteLength before]? = some (byteOf c) := by
  rw [bytes_eq_flatMap, h, List.flatMap_append, List.flatMap_cons, utf8_byteOf small, ← length_utf8,
    List.getElem?_append_right (Nat.le_refl _), Nat.sub_self]
  rfl

end Whole

/-- A mark of a string or of raw template text stands at an offset, and an even number of backslashes in front
    of it. -/
def ClosesAt (mark : Char) (text : String) (i : Nat) : Prop :=
  (bytes text)[i]? = some (byteOf mark) ∧ Even (((bytes text).take i).rtakeWhile (· == backslash)).length

/-- A backtick, or a dollar sign with a brace behind it, stands at an offset, and an even number of backslashes in
    front of it. -/
def SegmentEndsAt (text : String) (i : Nat) : Prop :=
  ((bytes text)[i]? = some (byteOf '\x60') ∨
    (bytes text)[i]? = some (byteOf '$') ∧ (bytes text)[i + 1]? = some (byteOf '\x7b')) ∧
  Even (((bytes text).take i).rtakeWhile (· == backslash)).length

theorem freeAt_beginsWith {mark : Char} {text : String} {i : Nat} :
    FreeAt (BeginsWith mark) (bytes text) i ↔ ClosesAt mark text i := by
  rw [FreeAt, BeginsWith, List.getElem?_drop]
  rfl

theorem freeAt_endsSegment {text : String} {i : Nat} :
    FreeAt EndsSegment (bytes text) i ↔ SegmentEndsAt text i := by
  rw [FreeAt, EndsSegment, List.getElem?_drop, List.getElem?_drop]
  rfl

end BraceLang
