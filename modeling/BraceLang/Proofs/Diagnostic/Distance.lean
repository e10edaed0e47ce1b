import BraceLang.Diagnostic.Suggestion
import Mathlib.Data.List.Induction

/-! The distance of two words, and the table that computes it. A row of the table holds the distances of
    the part of the first word read so far to every beginning of the second. A row with one more letter
    has no entry below all of the row before it, so a table that is given up at a row beyond the limit
    would not have come back to it.

    Main statement: the bounded distance is the distance up to the limit and nothing beyond it. -/

namespace BraceLang.Suggestion

/-- The least number of insertions, deletions and substitutions that turn one word into the other. -/
def levenshtein : List Char → List Char → Nat
  | [], bs => bs.length
  | as, [] => as.length
  | a :: as, b :: bs =>
    min (min (levenshtein as (b :: bs) + 1) (levenshtein (a :: as) bs + 1))
      (levenshtein as bs + if a = b then 0 else 1)

variable {a b : Char} {as bs done more : List Char} {limit : Nat}

/-! ### The distance -/

@[simp] theorem levenshtein_nil_left (bs : List Char) : levenshtein [] bs = bs.length := by
  rw [levenshtein]

@[simp] theorem levenshtein_nil_right (as : List Char) : levenshtein as [] = as.length := by
  cases as <;> simp [levenshtein]

theorem levenshtein_cons (a b : Char) (as bs : List Char) : levenshtein (a :: as) (b :: bs) =
    min (min (levenshtein as (b :: bs) + 1) (levenshtein (a :: as) bs + 1))
      (levenshtein as bs + if a = b then 0 else 1) := by
  rw [levenshtein]

/-- Letters may be compared from the end of the words as well. -/
theorem levenshtein_concat (a b : Char) (as bs : List Char) :
    levenshtein (as ++ [a]) (bs ++ [b]) =
      min (min (levenshtein as (bs ++ [b]) + 1) (levenshtein (as ++ [a]) bs + 1))
        (levenshtein as bs + if a = b then 0 else 1) := by
  -- Both ends of both words are taken off, in either order, so the two minima are over the same nine.
  induction as generalizing bs with
  | nil =>
    induction bs with
    | nil => simp [levenshtein_cons]
    | cons y bs ih =>
      simp only [List.nil_append, List.cons_append, levenshtein_cons] at ih ⊢
      simp only [ih, levenshtein_nil_left, List.length_append, List.length_cons, List.length_nil]
      omega
  | cons x as ihas =>
    induction bs with
    | nil =>
      have ih := ihas []
      simp only [List.nil_append, List.cons_append, levenshtein_cons] at ih ⊢
      simp only [ih, levenshtein_nil_right, List.length_append, List.length_cons, List.length_nil]
      omega
    | cons y bs ihbs =>
      have ih := ihas (y :: bs)
      simp only [List.cons_append, levenshtein_cons] at ih ihbs ⊢
      rw [ihas bs, ih, ihbs]
      simp only [← Nat.add_min_add_right]
      ac_rfl

theorem length_le_levenshtein (as bs : List Char) :
    as.length ≤ bs.length + levenshtein as bs ∧ bs.length ≤ as.length + levenshtein as bs := by
  fun_induction levenshtein as bs with
  | case1 bs => simp
  | case2 as _ => simp
  | case3 a as b bs ih₁ ih₂ ih₃ =>
    simp only [List.length_cons] at ih₁ ih₂ ⊢
    omega

/-! ### Rows of the table -/

/-- The distances of `as` to `done` and to every longer beginning of `done ++ bs`. -/
def row (as done : List Char) : List Char → List Nat
  | [] => [levenshtein as done]
  | b :: bs => levenshtein as done :: row as (done ++ [b]) bs

theorem row_eq_cons (as done bs : List Char) :
    row as done bs = levenshtein as done :: (row as done bs).tail := by
  cases bs <;> rfl

theorem getLast?_row (as done bs : List Char) :
    (row as done bs).getLast? = some (levenshtein as (done ++ bs)) := by
  induction bs generalizing done with
  | nil => rw [row, List.append_nil, List.getLast?_singleton]
  | cons b bs ih =>
    rw [row, row_eq_cons, List.getLast?_cons_cons, ← row_eq_cons, ih, List.append_assoc,
      List.singleton_append]

theorem row_nil (done bs : List Char) : row [] done bs = List.range' done.length (bs.length + 1) := by
  induction bs generalizing done with
  | nil => simp [row]
  | cons b bs ih =>
    rw [row, ih, levenshtein_nil_left, List.length_append, List.length_singleton, List.length_cons,
      List.range'_succ (n := bs.length + 1)]

theorem rowFrom_row (a : Char) (as done bs : List Char) :
    rowFrom a (levenshtein (as ++ [a]) done) (row as done bs) bs = (row (as ++ [a]) done bs).tail := by
  induction bs generalizing done with
  | nil => rfl
  | cons b bs ih =>
    rw [row, row_eq_cons as, rowFrom]
    simp only [← levenshtein_concat]
    rw [← row_eq_cons, ih, row, List.tail_cons, ← row_eq_cons]

/-- One more letter of the first word gives the next row of the table. -/
theorem nextRow_row (a : Char) (as bs : List Char) :
    nextRow a (as.length + 1) (row as [] bs) bs = row (as ++ [a]) [] bs := by
  have first : as.length + 1 = levenshtein (as ++ [a]) [] := by simp
  rw [nextRow, first, rowFrom_row, ← row_eq_cons]

/-! ### Rows beyond the limit -/

theorem row_beyond_iff (as bs : List Char) :
    (row as done bs).all (limit < ·) = true ↔
      ∀ start, start <+: bs → limit < levenshtein as (done ++ start) := by
  induction bs generalizing done with
  | nil => simp [row]
  | cons b bs ih =>
    simp only [row, List.all_cons, Bool.and_eq_true, decide_eq_true_eq, ih, List.prefix_cons_iff]
    constructor
    · rintro ⟨hdone, hrest⟩ start (rfl | ⟨start, rfl, hstart⟩)
      · rwa [List.append_nil]
      · rw [List.append_cons]
        exact hrest start hstart
    · intro h
      refine ⟨by simpa using h [] (.inl rfl), fun start hstart => ?_⟩
      have := h (b :: start) (.inr ⟨start, rfl, hstart⟩)
      rwa [List.append_cons] at this

/-- One more letter of the first word leaves every entry of a row beyond the limit. -/
theorem beyond_concat (h : ∀ start, start <+: bs → limit < levenshtein as start) :
    ∀ start, start <+: bs → limit < levenshtein (as ++ [a]) start := by
  intro start
  induction start using List.reverseRecOn with
  | nil =>
    intro hstart
    have := h [] hstart
    simp only [levenshtein_nil_right, List.length_append] at this ⊢
    omega
  | append_singleton start b ih =>
    intro hstart
    have shorter := (List.prefix_append start [b]).trans hstart
    have above := h _ hstart
    have diagonal := h start shorter
    have left := ih shorter
    rw [levenshtein_concat]
    omega

theorem beyond_append (h : ∀ start, start <+: bs → limit < levenshtein as start) :
    limit < levenshtein (as ++ more) bs := by
  induction more generalizing as with
  | nil =>
    rw [List.append_nil]
    exact h bs List.prefix_rfl
  | cons a more ih =>
    rw [List.append_cons]
    exact ih (beyond_concat h)

/-- The last row is that of the whole first word; it is given up only if the distance is beyond the
    limit. -/
theorem lastRow?_row (limit : Nat) (bs as more : List Char) :
    lastRow? limit bs more as.length (row as [] bs) = some (row (as ++ more) [] bs) ∨
      lastRow? limit bs more as.length (row as [] bs) = none ∧ limit < levenshtein (as ++ more) bs := by
  induction more generalizing as with
  | nil =>
    rw [List.append_nil]
    exact .inl rfl
  | cons a more ih =>
    have word : as ++ a :: more = (as ++ [a]) ++ more := List.append_cons as a more
    rw [lastRow?, nextRow_row, word]
    split
    · rename_i beyond
      exact .inr ⟨rfl, beyond_append ((row_beyond_iff _ _).mp beyond)⟩
    · have next := ih (as ++ [a])
      rwa [List.length_append, List.length_singleton] at next

/-- The bounded distance is the distance if that is within the limit, and nothing otherwise. -/
theorem boundedDistance_eq_levenshtein (a b : String) (limit : Nat) :
    boundedDistance a b limit =
      if levenshtein a.toList b.toList ≤ limit then some (levenshtein a.toList b.toList) else none := by
  have lengths := length_le_levenshtein a.toList b.toList
  have start : List.range (b.toList.length + 1) = row [] [] b.toList := by
    rw [row_nil, List.range_eq_range', List.length_nil]
  rcases lastRow?_row limit b.toList [] a.toList with last | ⟨given, beyond⟩
  · rw [List.length_nil, List.nil_append] at last
    simp only [boundedDistance, start, last, Option.bind_some, getLast?_row, List.nil_append,
      Option.filter_some, decide_eq_true_eq]
    split
    · rw [if_neg (by omega)]
    · rfl
  · rw [List.length_nil] at given
    rw [List.nil_append] at beyond
    simp only [boundedDistance, start, given, Option.bind_none, ite_self]
    rw [if_neg (Nat.not_le.mpr beyond)]

example : boundedDistance "kitten" "sitting" 3 = some 3 := by decide

end BraceLang.Suggestion
