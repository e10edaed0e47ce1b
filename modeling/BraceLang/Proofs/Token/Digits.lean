import BraceLang.Token.Scan
import Mathlib.Data.Nat.Digits.Defs
import Mathlib.Data.List.Induction
import Mathlib.Data.List.TakeWhile

/-! Digits and what they are worth: a digit by its place among the sixteen, a run of digits by the powers of its
    base. Integers (`Numeral`) and escapes (`Escape.Spells`) are written in them.

    Main statements: the digits that are counted together have their positional value (`positional_eq_valueIn`),
    and an escape is decoded to what it spells (`Escape.decode_spells`). -/

namespace BraceLang

/-- The digits in the order of their values. -/
def allDigits : List Char := ['0', '1', '2', '3', '4', '5', '6', '7', '8', '9', 'a', 'b', 'c', 'd', 'e', 'f']

/-- The value of a digit, capital or not; sixteen for a character that is none. -/
def digitRank (c : Char) : Nat := allDigits.idxOf c.toLower

/-- The number that digits stand for in a base, the last of them counting once. -/
def valueIn (base : Nat) (ds : List Char) : Nat := Nat.ofDigits base (ds.reverse.map digitRank)

theorem digitValue?_eq (c : Char) : digitValue? c = if digitRank c < 16 then some (digitRank c) else none := by
  have low : ∀ n < 128, digitValue? (Char.ofNat n) =
      if digitRank (Char.ofNat n) < 16 then some (digitRank (Char.ofNat n)) else none := by decide
  by_cases h : c.toNat < 128
  · have found := low c.toNat h
    rwa [Char.ofNat_toNat] at found
  · -- behind the first 128 characters there is no digit and no capital letter
    have above {d : Char} (hd : d.toNat < 128) : ¬c ≤ d := by
      intro le
      have : c.toNat ≤ d.toNat := le
      omega
    have noValue : digitValue? c = none := by
      unfold digitValue?
      rw [if_neg fun h => above (by decide) h.2, if_neg fun h => above (by decide) h.2,
        if_neg fun h => above (by decide) h.2]
    have noCapital : c.toLower = c := by
      unfold Char.toLower
      split
      · rename_i capital
        have : c.toNat ≤ 90 := capital.2
        omega
      · rfl
    have noDigit : c ∉ allDigits := by
      intro hc
      have small : allDigits.all (·.toNat < 128) = true := by decide
      exact h (of_decide_eq_true (List.all_eq_true.mp small c hc))
    have rank : ¬digitRank c < 16 := by
      rw [digitRank, noCapital, List.idxOf_eq_length noDigit]
      decide
    rw [noValue, if_neg rank]

theorem isDigitIn_iff {base : Nat} (hbase : base ≤ 16) {c : Char} : isDigitIn base c = true ↔ digitRank c < base := by
  unfold isDigitIn
  rw [digitValue?_eq]
  split
  · rw [Option.any_some, decide_eq_true_iff]
  · rename_i h
    rw [Option.any_none]
    constructor
    · intro h
      cases h
    · omega

theorem isDigit_eq (c : Char) : c.isDigit = isDigitIn 10 c := by
  unfold isDigitIn digitValue?
  split
  · rename_i decimal
    have high : c.toNat ≤ 57 := decimal.2
    have value : c.toNat - '0'.toNat < 10 := by
      have zero : '0'.toNat = 48 := rfl
      omega
    rw [Option.any_some, decide_eq_true value]
    exact Bool.and_eq_true_iff.mpr ⟨decide_eq_true decimal.1, decide_eq_true decimal.2⟩
  · rename_i decimal
    have outside : c.isDigit = false := by
      rw [← Bool.not_eq_true]
      intro digit
      simp only [Char.isDigit, Bool.and_eq_true, decide_eq_true_eq] at digit
      exact decimal digit
    rw [outside]
    split
    · rw [Option.any_some, eq_comm, decide_eq_false_iff_not]
      omega
    · split
      · rw [Option.any_some, eq_comm, decide_eq_false_iff_not]
        omega
      · rfl

theorem isDigit_iff (c : Char) : c.isDigit = true ↔ digitRank c < 10 := by rw [isDigit_eq, isDigitIn_iff (by decide)]

theorem positional_eq_valueIn {base : Nat} (hbase : base ≤ 16) {ds : List Char}
    (h : ∀ c ∈ ds, isDigitIn base c = true) : positional base ds = valueIn base ds := by
  induction ds using List.reverseRecOn with
  | nil => rfl
  | append_singleton ds c ih =>
    rw [List.forall_mem_append, List.forall_mem_singleton] at h
    have rank : digitRank c < base := (isDigitIn_iff hbase).mp h.2
    have value : (digitValue? c).getD 0 = digitRank c := by
      rw [digitValue?_eq, if_pos (by omega), Option.getD_some]
    have last : positional base (ds ++ [c]) = positional base ds * base + (digitValue? c).getD 0 := by
      rw [positional, List.foldl_append]
      rfl
    calc positional base (ds ++ [c])
        = positional base ds * base + (digitValue? c).getD 0 := last
      _ = digitRank c + base * valueIn base ds := by rw [ih h.1, value, Nat.mul_comm, Nat.add_comm]
      _ = valueIn base (ds ++ [c]) := by
        rw [valueIn, valueIn, List.reverse_concat, List.map_cons, Nat.ofDigits_cons]

/-! ### Integers -/

/-- The letters that choose a base after a zero. -/
def bases : List (Char × Nat) := [('x', 16), ('X', 16), ('o', 8), ('O', 8), ('b', 2), ('B', 2)]

/-- Characters of a class, as many as stand together before the rest of a text. -/
structure Run (p : Char → Prop) (cs rest : List Char) : Prop where
  all : ∀ c ∈ cs, p c
  longest : ∀ c ∈ rest.head?, ¬p c

/-- How an integer is written, and its value, if it has one. -/
inductive Numeral (rest : List Char) : List Char → Option Nat → Prop where
  /-- Decimal digits that no letter of a base makes digits of another. -/
  | decimal {ds : List Char} (nonempty : ds ≠ []) (run : Run (digitRank · < 10) ds rest)
    (plain : ∀ b ∈ bases, ¬['0', b.1] <+: ds ++ rest) : Numeral rest ds (some (valueIn 10 ds))
  | based {b : Char × Nat} {ds : List Char} (base : b ∈ bases) (nonempty : ds ≠ [])
    (run : Run (digitRank · < b.2) ds rest) : Numeral rest ('0' :: b.1 :: ds) (some (valueIn b.2 ds))
  /-- The letter of a base with no digit behind it. The word there is no number. -/
  | malformed {b : Char × Nat} {word : List Char} (base : b ∈ bases)
    (digitless : ∀ c ∈ (word ++ rest).head?, ¬digitRank c < b.2) (run : Run (isWordPart · = true) word rest) :
    Numeral rest ('0' :: b.1 :: word) none

theorem run_takeWhile {p : Char → Prop} {q : Char → Bool} (h : ∀ c, q c = true ↔ p c) (cs : List Char) :
    Run p (cs.takeWhile q) (cs.dropWhile q) where
  all c hc := (h c).mp (List.mem_takeWhile_imp hc)
  longest c hc := by
    have stop := List.head?_dropWhile_not q cs
    rw [Option.mem_def.mp hc] at stop
    rw [← h c, Bool.not_eq_true]
    exact stop

theorem run_digits {first : Char} (hfirst : first.isDigit = true) (rest : List Char) :
    Run (digitRank · < 10) (first :: rest.takeWhile Char.isDigit) (rest.dropWhile Char.isDigit) := by
  have later := run_takeWhile isDigit_iff rest
  exact ⟨List.forall_mem_cons.mpr ⟨(isDigit_iff _).mp hfirst, later.all⟩, later.longest⟩

theorem digitless_of_takeWhile {cs : List Char} (h : (cs.takeWhile Char.isDigit).isEmpty = true) :
    ∀ c ∈ cs.head?, ¬digitRank c < 10 := by
  intro c hc digit
  obtain ⟨more, rfl⟩ := List.head?_eq_some_iff.mp hc
  rw [List.takeWhile_cons_of_pos ((isDigit_iff _).mpr digit)] at h
  cases h

theorem drop_length_takeWhile (p : Char → Bool) (cs : List Char) :
    cs.drop (cs.takeWhile p).length = cs.dropWhile p := by
  induction cs with
  | nil => rfl
  | cons c cs ih =>
    rw [List.takeWhile_cons, List.dropWhile_cons]
    split
    · exact ih
    · rfl

theorem mem_bases_of_ofLetter? {letter : Char} {radix : Radix} (h : Radix.ofLetter? letter = some radix) :
    (letter, radix.base) ∈ bases := by
  unfold Radix.ofLetter? at h
  split at h
  case h_7 => cases h
  all_goals
    obtain rfl := Option.some.inj h
    decide

/-! ### Escapes -/

namespace Escape

/-- The escapes that a letter names. -/
def named : List (Char × Char) :=
  [('n', '\n'), ('t', '\t'), ('v', '\x0b'), ('r', '\r'), ('a', '\x07'), ('b', '\x08')]

/-- What the characters behind a backslash stand for. -/
inductive Spells : List Char → Char → Prop where
  | named {e : Char × Char} (h : e ∈ named) : Spells [e.1] e.2
  | hexadecimal {ds : List Char} (nonempty : ds ≠ []) (few : ds.length ≤ 2) (h : ∀ c ∈ ds, digitRank c < 16) :
    Spells ('x' :: ds) (Char.ofNat (valueIn 16 ds))
  | octal {ds : List Char} (nonempty : ds ≠ []) (few : ds.length ≤ 3) (h : ∀ c ∈ ds, digitRank c < 8) :
    Spells ds (Char.ofNat (valueIn 8 ds))
  /-- Any other character stands for itself. -/
  | itself {c : Char} (unnamed : ∀ e ∈ named, c ≠ e.1) (digit : ¬digitRank c < 8) : Spells [c] c

theorem take_takeWhile_length {p : Char → Bool} (cs : List Char) (n : Nat) :
    cs.take ((cs.take n).takeWhile p).length = (cs.take n).takeWhile p := by
  have within : (cs.take n).takeWhile p <+: cs := (List.takeWhile_prefix _).trans (List.take_prefix n cs)
  exact (List.prefix_iff_eq_take.mp within).symm

/-- An escape, which has a character at least, is decoded to what it spells. -/
theorem decode_spells {cs : List Char} (h : cs ≠ []) : Spells (cs.take (decode cs).length) (decode cs).value := by
  have inBase {base n : Nat} (hbase : base ≤ 16) (ds : List Char) :
      ∀ c ∈ (ds.take n).takeWhile (isDigitIn base), digitRank c < base :=
    fun c hc => (isDigitIn_iff hbase).mp (List.mem_takeWhile_imp hc)
  unfold decode
  split
  · exact absurd rfl h
  · rename_i rest
    dsimp only
    split
    · exact .itself (by decide) (by decide)
    · rename_i nonempty
      rw [Nat.add_comm, List.take_succ_cons, take_takeWhile_length,
        positional_eq_valueIn (by decide) fun c hc => List.mem_takeWhile_imp hc]
      refine .hexadecimal (fun nil => nonempty (by rw [nil]; rfl)) ?_ (inBase (by decide) rest)
      exact (List.takeWhile_prefix _).length_le.trans (List.length_take_le 2 rest)
  case h_3 | h_4 | h_5 | h_6 | h_7 | h_8 => exact .named (e := (_, _)) (by decide)
  · rename_i c rest x n t v r a b
    split
    · rename_i digit
      have nonempty : ((c :: rest).take 3).takeWhile (isDigitIn 8) ≠ [] := by
        rw [List.take_succ_cons, List.takeWhile_cons_of_pos digit]
        exact List.cons_ne_nil _ _
      dsimp only
      rw [take_takeWhile_length, positional_eq_valueIn (by decide) fun c hc => List.mem_takeWhile_imp hc]
      refine .octal nonempty ?_ (inBase (by decide) (c :: rest))
      exact (List.takeWhile_prefix _).length_le.trans (List.length_take_le 3 (c :: rest))
    · rename_i digit
      refine .itself ?_ fun rank => digit ((isDigitIn_iff (by decide)).mpr rank)
      simp only [named, List.forall_mem_cons]
      exact ⟨n, t, v, r, a, b, List.forall_mem_nil _⟩

end Escape

end BraceLang
