import BraceLang.Proofs.Token.Stream
import Mathlib.Data.List.DropRight

/-! Places in a source. The line map counts the line breaks behind an offset and remembers where the line
    of the offset begins (`LineMap.lineColumn_byteLength`), so the location of an offset between two
    characters is genuine, and so is the range between two such offsets (`Source.range_genuine`) and
    what two genuine ranges merge to (`Range.Genuine.merge`). -/

namespace BraceLang

open Text (byteLength)

/-! ### Line starts -/

/-- The offset at which the last line of a text begins. -/
def Text.lastLineStart (cs : List Char) : Nat := byteLength (cs.rdropWhile (· != '\n'))

namespace LineMap

theorem startsAfter_append (pos : Nat) (as bs : List Char) :
    startsAfter pos (as ++ bs) = startsAfter pos as ++ startsAfter (pos + byteLength as) bs := by
  induction as generalizing pos with
  | nil => rfl
  | cons a as ih =>
    have assoc : pos + byteLength (a :: as) = pos + a.utf8Size + byteLength as := by
      rw [Text.byteLength_cons, Nat.add_assoc]
    rw [List.cons_append, startsAfter, startsAfter, ih, assoc]
    split
    · rfl
    · rfl

theorem lt_of_mem_startsAfter {pos start : Nat} {cs : List Char} (h : start ∈ startsAfter pos cs) :
    pos < start := by
  induction cs generalizing pos with
  | nil => cases h
  | cons c cs ih =>
    have taken : pos < pos + c.utf8Size := Nat.lt_add_of_pos_right c.utf8Size_pos
    rw [startsAfter] at h
    split at h
    · rcases List.mem_cons.mp h with rfl | h
      · exact taken
      · exact Nat.lt_trans taken (ih h)
    · exact Nat.lt_trans taken (ih h)

theorem le_of_mem_startsAfter {pos start : Nat} {cs : List Char} (h : start ∈ startsAfter pos cs) :
    start ≤ pos + byteLength cs := by
  induction cs generalizing pos with
  | nil => cases h
  | cons c cs ih =>
    rw [Text.byteLength_cons, ← Nat.add_assoc]
    rw [startsAfter] at h
    split at h
    · rcases List.mem_cons.mp h with rfl | h
      · exact Nat.le_add_right _ _
      · exact ih h
    · exact ih h

theorem length_startsAfter (pos : Nat) (cs : List Char) : (startsAfter pos cs).length = cs.count '\n' := by
  induction cs generalizing pos with
  | nil => rfl
  | cons c cs ih =>
    rw [startsAfter]
    by_cases h : c = '\n'
    · rw [if_pos h, List.length_cons, ih, h, List.count_cons_self]
    · rw [if_neg h, ih, List.count_cons_of_ne h]

/-- The last line start is the one of the line that the text ends in. -/
theorem getLastD_startsAfter (cs : List Char) :
    (0 :: startsAfter 0 cs).getLastD 0 = Text.lastLineStart cs := by
  induction cs using List.reverseRecOn with
  | nil => rfl
  | append_singleton cs c ih =>
    rw [startsAfter_append, Text.lastLineStart, List.rdropWhile_concat, ← List.cons_append]
    by_cases h : c = '\n'
    · subst h
      rw [startsAfter, if_pos rfl, startsAfter, List.getLastD_concat]
      simp
    · simpa [startsAfter, h, Text.lastLineStart] using ih

/-- The line and column of an offset between two pieces of the text. -/
theorem lineColumn_byteLength (before after : List Char) :
    (ofText (before ++ after)).lineColumn (byteLength before) =
      (saturate (before.count '\n' + 1),
        saturate (byteLength before - Text.lastLineStart before + 1)) := by
  have begun : (ofText (before ++ after)).starts.takeWhile (· ≤ byteLength before) =
      0 :: startsAfter 0 before := by
    have behind : ∀ start ∈ 0 :: startsAfter 0 before, decide (start ≤ byteLength before) = true := by
      intro start hstart
      rcases List.mem_cons.mp hstart with rfl | hstart
      · exact decide_eq_true (Nat.zero_le _)
      · exact decide_eq_true (Nat.zero_add (byteLength before) ▸ le_of_mem_startsAfter hstart)
    have ahead : (startsAfter (byteLength before) after).takeWhile (· ≤ byteLength before) = [] := by
      rw [List.takeWhile_eq_nil_iff]
      intro hne hle
      exact Nat.not_lt.mpr (of_decide_eq_true hle) (lt_of_mem_startsAfter (List.getElem_mem hne))
    rw [ofText, startsAfter_append, ← List.cons_append, List.takeWhile_append_of_pos behind,
      Nat.zero_add, ahead, List.append_nil]
  rw [lineColumn, begun, getLastD_startsAfter, List.length_cons, length_startsAfter]

end LineMap

/-! ### Genuine locations and ranges -/

/-- The location of the end of `before`: its offset counts the bytes there, its line the line breaks,
    and its column the bytes since the last of them. Lines and columns are exact below 2³². -/
structure Location.Behind (before : List Char) (loc : Location) : Prop where
  pos_eq : loc.pos = byteLength before
  line_eq : before.count '\n' + 1 < 2 ^ 32 → loc.line = before.count '\n' + 1
  column_eq : loc.pos - Text.lastLineStart before + 1 < 2 ^ 32 →
    loc.column = loc.pos - Text.lastLineStart before + 1

/-- A location between two characters of a source, or at either end of it. -/
def Location.Genuine (source : Source) (loc : Location) : Prop :=
  ∃ before after, source.chars = before ++ after ∧ loc.Behind before

/-- A range that is a piece of the text of a source. -/
structure Range.Genuine (source : Source) (r : Range) : Prop where
  source_eq : r.source = source.id
  start_le_stop : r.start.pos ≤ r.stop.pos
  stop_le_length : r.stop.pos ≤ source.length
  slice : (source.slice? r.start.pos r.stop.pos).isSome = true
  start : r.start.Genuine source
  stop : r.stop.Genuine source

theorem saturate_eq_of_lt {n : Nat} (h : n < 2 ^ 32) : saturate n = n :=
  Nat.min_eq_left (Nat.le_of_lt_succ h)

theorem Text.append_of_byteLength_le {as bs cs ds : List Char} (h : as ++ cs = bs ++ ds)
    (le : byteLength as ≤ byteLength bs) : ∃ mid, bs = as ++ mid := by
  rcases List.append_eq_append_iff.mp h with ⟨mid, rfl, -⟩ | ⟨mid, rfl, -⟩
  · exact ⟨mid, rfl⟩
  · -- the longer of the two takes no more bytes, so it is no longer
    cases mid with
    | nil => exact ⟨[], by simp⟩
    | cons c mid =>
      have := c.utf8Size_pos
      rw [byteLength_append, byteLength_cons] at le
      omega

namespace Source
variable {source : Source}

theorem location_byteLength {before after : List Char} (h : source.chars = before ++ after) :
    source.location (byteLength before) =
      ⟨byteLength before, saturate (before.count '\n' + 1),
        saturate (byteLength before - Text.lastLineStart before + 1)⟩ := by
  have inside : byteLength before ≤ source.length := by
    rw [source.length_eq, h, Text.byteLength_append]
    exact Nat.le_add_right _ _
  rw [location, Nat.min_eq_left inside, source.lines_eq, ← chars, h, LineMap.lineColumn_byteLength]

theorem location_genuine {before after : List Char} (h : source.chars = before ++ after) :
    (source.location (byteLength before)).Genuine source := by
  refine ⟨before, after, h, ?_⟩
  rw [location_byteLength h]
  exact ⟨rfl, saturate_eq_of_lt, saturate_eq_of_lt⟩

end Source

namespace Range.Genuine
variable {source : Source} {a b r : Range}

/-- Two genuine locations in order are the ends of a piece of the text. -/
theorem of_locations (source_eq : r.source = source.id) (ordered : r.start.pos ≤ r.stop.pos)
    (start : r.start.Genuine source) (stop : r.stop.Genuine source) : r.Genuine source := by
  obtain ⟨before, after, hchars, hstart⟩ := id start
  obtain ⟨upto, rest, hchars', hstop⟩ := id stop
  obtain ⟨mid, rfl⟩ : ∃ mid, upto = before ++ mid := by
    refine Text.append_of_byteLength_le (hchars.symm.trans hchars') ?_
    rw [← hstart.pos_eq, ← hstop.pos_eq]
    exact ordered
  refine ⟨source_eq, ordered, ?_, ?_, start, stop⟩
  · rw [hstop.pos_eq, source.length_eq, hchars', Text.byteLength_append (before ++ mid)]
    exact Nat.le_add_right _ _
  · rw [Source.slice?, hstart.pos_eq, hstop.pos_eq, Text.byteLength_append, hchars', List.append_assoc,
      Text.slice?_byteLength]
    rfl

/-- Two genuine ranges merge to a genuine range. -/
theorem merge (ha : a.Genuine source) (hb : b.Genuine source) : (a.merge b).Genuine source := by
  by_cases longer : a.stop.pos < b.stop.pos
  · rw [Range.merge, if_pos longer]
    exact of_locations ha.source_eq (Nat.le_trans ha.start_le_stop (Nat.le_of_lt longer)) ha.start hb.stop
  · rw [Range.merge, if_neg longer]
    exact ha

end Range.Genuine

namespace Source
variable {source : Source}

/-- The range of a piece of the text is genuine. -/
theorem range_genuine {before inside after : List Char} (h : source.chars = before ++ (inside ++ after)) :
    (source.range (byteLength before) (byteLength before + byteLength inside)).Genuine source := by
  have fits : byteLength before + byteLength inside ≤ source.length := by
    rw [source.length_eq, h, Text.byteLength_append, Text.byteLength_append]
    omega
  have stop : max (byteLength before + byteLength inside) (byteLength before) =
      byteLength (before ++ inside) := by
    rw [Nat.max_eq_left (Nat.le_add_right _ _), Text.byteLength_append]
  refine .of_locations rfl ?_ (location_genuine h) ?_
  · rw [range_start_pos (Nat.le_of_add_right_le fits), range_stop_pos (Nat.le_add_right _ _) fits]
    exact Nat.le_add_right _ _
  · rw [range, stop]
    exact location_genuine (h.trans (List.append_assoc _ _ _).symm)

end Source

/-! ### Pieces -/

/-- The range of a piece of the text of a source. -/
def Range.Piece (source : Source) (r : Range) : Prop :=
  ∃ before inside after, source.chars = before ++ (inside ++ after) ∧
    r = source.range (byteLength before) (byteLength before + byteLength inside)

namespace Range.Piece
variable {source : Source} {a b r : Range}

theorem genuine (h : r.Piece source) : r.Genuine source := by
  obtain ⟨before, inside, after, hchars, rfl⟩ := h
  exact Source.range_genuine hchars

/-- Two pieces merge to a piece. -/
theorem merge (ha : a.Piece source) (hb : b.Piece source) : (a.merge b).Piece source := by
  by_cases longer : a.stop.pos < b.stop.pos
  · have ordered := ha.genuine.start_le_stop
    obtain ⟨before, inside, after, hchars, rfl⟩ := ha
    obtain ⟨before', inside', after', hchars', rfl⟩ := hb
    have whole : source.chars = (before' ++ inside') ++ after' := by rw [hchars', List.append_assoc]
    have fits : byteLength before ≤ source.length := by
      rw [source.length_eq, hchars, Text.byteLength_append]
      exact Nat.le_add_right _ _
    have fits' : byteLength before' + byteLength inside' ≤ source.length := by
      rw [source.length_eq, whole, Text.byteLength_append, Text.byteLength_append]
      exact Nat.le_add_right _ _
    rw [Source.range_start_pos fits] at ordered
    rw [Source.range_stop_pos (Nat.le_add_right _ _) fits'] at longer
    have further : byteLength before ≤ byteLength before' + byteLength inside' :=
      Nat.le_trans ordered (Nat.le_of_lt longer)
    obtain ⟨mid, hmid⟩ : ∃ mid, before' ++ inside' = before ++ mid := by
      refine Text.append_of_byteLength_le (hchars.symm.trans whole) ?_
      rwa [Text.byteLength_append]
    have stop : byteLength before + byteLength mid = byteLength before' + byteLength inside' := by
      rw [← Text.byteLength_append, ← hmid, Text.byteLength_append]
    refine ⟨before, mid, after', by rw [whole, hmid, List.append_assoc], ?_⟩
    rw [Range.merge, if_pos (by rwa [Source.range_stop_pos (Nat.le_add_right _ _) fits']), stop]
    simp only [Source.range, Nat.max_eq_left (Nat.le_add_right _ _), Nat.max_eq_left further]
  · rw [Range.merge, if_neg longer]
    exact ha

end Range.Piece

end BraceLang
