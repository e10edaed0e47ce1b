import BraceLang.Proofs.Token.Written

/-! How far decimal numbers reach. A whole number is all the digits that stand together (`WholeNumber`); a full one
    goes on with a fraction and an exponent where they stand behind the digits (`FullNumber`).

    Main statement: right behind a single point a decimal number is whole, and elsewhere it is full
    (`Lexer.decimalNumber_reaches`). -/

namespace BraceLang

/-- The fraction before the rest of a text; nothing if no point with a digit behind it stands there. -/
inductive FractionPart (rest : List Char) : List Char → Prop where
  | present {ds : List Char} (nonempty : ds ≠ []) (run : Run (digitRank · < 10) ds rest) :
    FractionPart rest ('.' :: ds)
  | absent (h : ∀ d, ['.', d] <+: rest → ¬digitRank d < 10) : FractionPart rest []

/-- The letters that an exponent starts with. -/
def exponentMarks : List Char := ['e', 'E']

/-- What may stand between the letter of an exponent and its digits. -/
def exponentSigns : List (List Char) := [[], ['+'], ['-']]

/-- The exponent before the rest of a text; nothing if no letter, sign and digit of one stand there. -/
inductive ExponentPart (rest : List Char) : List Char → Prop where
  | present {mark : Char} {sign ds : List Char} (hmark : mark ∈ exponentMarks) (hsign : sign ∈ exponentSigns)
    (nonempty : ds ≠ []) (run : Run (digitRank · < 10) ds rest) : ExponentPart rest (mark :: (sign ++ ds))
  | absent (h : ∀ mark ∈ exponentMarks, ∀ sign ∈ exponentSigns, ∀ d,
    mark :: (sign ++ [d]) <+: rest → ¬digitRank d < 10) : ExponentPart rest []

/-- Decimal digits, as many as stand together before the rest of a text. -/
structure WholeNumber (rest cs : List Char) : Prop where
  nonempty : cs ≠ []
  run : Run (digitRank · < 10) cs rest

/-- Decimal digits with the fraction and the exponent behind them, each as far as it reaches. -/
inductive FullNumber (rest : List Char) : List Char → Prop where
  | mk {ds fraction exponent : List Char} (whole : WholeNumber (fraction ++ (exponent ++ rest)) ds)
    (hfraction : FractionPart (exponent ++ rest) fraction) (hexponent : ExponentPart rest exponent) :
    FullNumber rest (ds ++ (fraction ++ exponent))

/-! ### Digits -/

/-- Nothing but digits stands in a part that has a mark only if the part is absent. -/
theorem FractionPart.digits {rest fraction : List Char} (h : FractionPart rest fraction) :
    (∀ c ∈ fraction, digitRank c < 10) ↔ fraction = [] := by
  cases h with
  | present =>
    refine iff_of_false (fun all => ?_) (List.cons_ne_nil _ _)
    exact absurd (all '.' List.mem_cons_self) (by decide)
  | absent => exact iff_of_true (List.forall_mem_nil _) rfl

theorem ExponentPart.digits {rest exponent : List Char} (h : ExponentPart rest exponent) :
    (∀ c ∈ exponent, digitRank c < 10) ↔ exponent = [] := by
  cases h with
  | @present mark _ _ hmark =>
    have letters : ∀ mark ∈ exponentMarks, ¬digitRank mark < 10 := by
      simp only [exponentMarks, List.forall_mem_cons]
      exact ⟨by decide, by decide, List.forall_mem_nil _⟩
    refine iff_of_false (fun all => ?_) (List.cons_ne_nil _ _)
    exact letters mark hmark (all mark List.mem_cons_self)
  | absent => exact iff_of_true (List.forall_mem_nil _) rfl

/-- Characters of which the last is a digit. -/
def EndsInDigit (cs : List Char) : Prop := ∃ before d, cs = before ++ [d] ∧ digitRank d < 10

theorem Run.endsInDigit {ds rest : List Char} (h : Run (digitRank · < 10) ds rest) (nonempty : ds ≠ [])
    (before : List Char) : EndsInDigit (before ++ ds) := by
  obtain ⟨between, d, rfl⟩ := (List.eq_nil_or_concat' ds).resolve_left nonempty
  exact ⟨before ++ between, d, (List.append_assoc _ _ _).symm,
    h.all d (List.mem_append_right _ (List.mem_singleton_self d))⟩

theorem WholeNumber.endsInDigit {rest cs : List Char} (h : WholeNumber rest cs) : EndsInDigit cs :=
  h.run.endsInDigit h.nonempty []

theorem FractionPart.endsInDigit {rest fraction ds : List Char} (h : FractionPart rest fraction)
    (hds : EndsInDigit ds) : EndsInDigit (ds ++ fraction) := by
  cases h with
  | present nonempty run =>
    rw [List.append_cons]
    exact run.endsInDigit nonempty _
  | absent =>
    rw [List.append_nil]
    exact hds

theorem ExponentPart.endsInDigit {rest exponent ds : List Char} (h : ExponentPart rest exponent)
    (hds : EndsInDigit ds) : EndsInDigit (ds ++ exponent) := by
  cases h with
  | @present mark sign _ _ _ nonempty run =>
    have split (more : List Char) : ds ++ mark :: (sign ++ more) = (ds ++ mark :: sign) ++ more := by
      rw [List.append_assoc, List.cons_append]
    rw [split]
    exact run.endsInDigit nonempty _
  | absent =>
    rw [List.append_nil]
    exact hds

theorem FullNumber.endsInDigit {rest cs : List Char} (h : FullNumber rest cs) : EndsInDigit cs := by
  obtain ⟨whole, hfraction, hexponent⟩ := h
  rw [← List.append_assoc]
  exact hexponent.endsInDigit (hfraction.endsInDigit whole.endsInDigit)

/-! ### Measuring -/

theorem eq_of_mem_exponentSigns {sign : List Char} (h : sign ∈ exponentSigns) :
    sign = [] ∨ ∃ s, sign = [s] ∧ ¬digitRank s < 10 := by
  simp only [exponentSigns, List.mem_cons, List.not_mem_nil, or_false] at h
  rcases h with rfl | rfl | rfl
  · exact .inl rfl
  · exact .inr ⟨_, rfl, by decide⟩
  · exact .inr ⟨_, rfl, by decide⟩

theorem mem_head?_of_starts {c : Char} {cs ds : List Char} (h : c :: cs <+: ds) : c ∈ ds.head? := by
  obtain ⟨more, rfl⟩ := h
  rfl

/-- The exponent that is measured after its letter and sign. -/
theorem exponent_measured {mark : Char} (sign : List Char) {ds : List Char} (hmark : mark ∈ exponentMarks)
    (hsign : sign ∈ exponentSigns) (unsigned : sign = [] → ∀ c ∈ ds.head?, [c] ∉ exponentSigns) (value : Int) :
    ∃ exponent rest, mark :: (sign ++ ds) = exponent ++ rest ∧ ExponentPart rest exponent ∧
      exponent.length = Option.elim (if (ds.takeWhile Char.isDigit).isEmpty then none
        else some (value, sign.length + 1 + (ds.takeWhile Char.isDigit).length)) 0 Prod.snd := by
  split
  · rename_i empty
    have digitless := digitless_of_takeWhile empty
    refine ⟨[], _, rfl, .absent fun other _ sign' hsign' d within => ?_, rfl⟩
    have within : sign' ++ [d] <+: sign ++ ds := (List.cons_prefix_cons.mp within).2
    -- one sign at most stands before the digit, and it is no digit itself
    rcases eq_of_mem_exponentSigns hsign with rfl | ⟨s, rfl, hs⟩ <;>
      rcases eq_of_mem_exponentSigns hsign' with rfl | ⟨s', rfl, -⟩
    · exact digitless d (mem_head?_of_starts within)
    · exact absurd hsign' (unsigned rfl s' (mem_head?_of_starts within))
    · obtain rfl : d = s := (List.cons_prefix_cons.mp within).1
      exact hs
    · exact digitless d (mem_head?_of_starts (List.cons_prefix_cons.mp within).2)
  · rename_i nonempty
    refine ⟨mark :: (sign ++ ds.takeWhile Char.isDigit), ds.dropWhile Char.isDigit, ?_,
      .present hmark hsign (fun nil => nonempty (by rw [nil]; rfl)) (run_takeWhile isDigit_iff ds), ?_⟩
    · rw [List.cons_append, List.append_assoc, List.takeWhile_append_dropWhile]
    · simp only [Option.elim_some, List.length_cons, List.length_append]
      omega

/-- What is measured as an exponent is the exponent there. -/
theorem exponentPart?_measured (cs : List Char) : ∃ exponent rest, cs = exponent ++ rest ∧
    ExponentPart rest exponent ∧ exponent.length = (exponentPart? cs).elim 0 Prod.snd := by
  unfold exponentPart?
  dsimp only
  split
  case h_3 he hE =>
    refine ⟨[], cs, rfl, .absent fun mark hmark sign _ d within => ?_, rfl⟩
    obtain ⟨more, rfl⟩ := within
    simp only [exponentMarks, List.mem_cons, List.not_mem_nil, or_false] at hmark
    rcases hmark with rfl | rfl
    · exact absurd rfl (he _)
    · exact absurd rfl (hE _)
  all_goals
    split
    · exact exponent_measured ['-'] (by decide) (by decide) (fun h => by cases h) _
    · exact exponent_measured ['+'] (by decide) (by decide) (fun h => by cases h) _
    · rename_i minus plus
      refine exponent_measured [] (by decide) (by decide) (fun _ c hc hsign => ?_) _
      obtain ⟨more, rfl⟩ := List.head?_eq_some_iff.mp hc
      simp only [exponentSigns, List.mem_cons, List.cons.injEq, and_true, List.not_mem_nil, or_false] at hsign
      rcases hsign with h | rfl | rfl
      · cases h
      · exact plus _ rfl
      · exact minus _ rfl

theorem fractionDigits_measured (cs : List Char) : ∃ fraction rest, cs = fraction ++ rest ∧
    FractionPart rest fraction ∧ fraction.length = if (fractionDigits cs).isEmpty then 0 else (fractionDigits cs).length + 1 := by
  unfold fractionDigits
  split
  · rename_i ds
    split
    · rename_i empty
      refine ⟨[], '.' :: ds, rfl, .absent fun d within => ?_, rfl⟩
      exact digitless_of_takeWhile empty d (mem_head?_of_starts (List.cons_prefix_cons.mp within).2)
    · rename_i nonempty
      exact ⟨'.' :: ds.takeWhile Char.isDigit, ds.dropWhile Char.isDigit,
        congrArg ('.' :: ·) List.takeWhile_append_dropWhile.symm,
        .present (fun nil => nonempty (by rw [nil]; rfl)) (run_takeWhile isDigit_iff ds), rfl⟩
  · rename_i other
    refine ⟨[], cs, rfl, .absent fun d within => ?_, rfl⟩
    obtain ⟨more, rfl⟩ := within
    exact absurd rfl (other _)

/-- What is measured as a fraction and an exponent are those that stand there. -/
theorem fraction?_measured (cs : List Char) : ∃ fraction exponent rest, cs = fraction ++ (exponent ++ rest) ∧
    FractionPart (exponent ++ rest) fraction ∧ ExponentPart rest exponent ∧
    (fraction ++ exponent).length = (fraction? cs).elim 0 Fraction.length := by
  obtain ⟨fraction, more, rfl, hfraction, hlength⟩ := fractionDigits_measured cs
  obtain ⟨exponent, rest, rfl, hexponent, hlength'⟩ := exponentPart?_measured more
  refine ⟨fraction, exponent, rest, rfl, hfraction, hexponent, ?_⟩
  unfold fraction?
  dsimp only
  rw [← hlength, List.drop_left, List.length_append, hlength']
  split
  · rename_i found
    rw [found]
    rfl
  · rename_i found
    rw [found]
    cases empty : (fractionDigits (fraction ++ (exponent ++ rest))).isEmpty with
    | true =>
      rw [hlength, if_pos empty]
      rfl
    | false => rfl

namespace Lexer
variable {lx : Lexer} {first : Char} {rest : List Char}

/-- A token is read as the decimal number `cs` at the cursor. -/
structure Reaches (lx : Lexer) (t : Token) (cs rest : List Char) : Prop where
  range : t.range = lx.rangeOf cs
  whole : lx.afterPoint = true → WholeNumber rest cs
  full : lx.afterPoint = false → FullNumber rest cs
  digits : t.kind = .floatLit ↔ ¬∀ c ∈ cs, digitRank c < 10

theorem integer_eq (lx : Lexer) (cs : List Char) (value : Nat) : ∃ t errors,
    lx.integer cs value = lx.emit (cs.length - 1) t errors ∧ t.range = lx.rangeOf cs ∧ t.kind ≠ .floatLit := by
  unfold integer
  dsimp only
  split
  · exact ⟨_, _, rfl, rfl, fun h => by cases h⟩
  · exact ⟨_, _, rfl, rfl, fun h => by cases h⟩

/-- A decimal number reaches as far as the character before it allows. -/
theorem decimalNumber_reaches (lx : Lexer) (hfirst : first.isDigit = true) (rest : List Char) :
    ∃ t cs more errors, first :: rest = cs ++ more ∧ lx.decimalNumber first rest = lx.emit (cs.length - 1) t errors ∧
      lx.Reaches t cs more := by
  have run := run_digits hfirst rest
  have split : first :: rest = (first :: rest.takeWhile Char.isDigit) ++ rest.dropWhile Char.isDigit := by
    rw [List.cons_append, List.takeWhile_append_dropWhile]
  obtain ⟨fraction, exponent, more, hmore, hfraction, hexponent, length⟩ :=
    fraction?_measured (rest.dropWhile Char.isDigit)
  have full : FullNumber more ((first :: rest.takeWhile Char.isDigit) ++ (fraction ++ exponent)) :=
    .mk ⟨List.cons_ne_nil _ _, hmore ▸ run⟩ hfraction hexponent
  have digits : (∀ c ∈ (first :: rest.takeWhile Char.isDigit) ++ (fraction ++ exponent), digitRank c < 10) ↔
      fraction ++ exponent = [] := by
    rw [List.forall_mem_append, List.forall_mem_append, hfraction.digits, hexponent.digits, List.append_eq_nil_iff]
    exact and_iff_right run.all
  simp only [decimalNumber, List.length_cons, Nat.add_sub_cancel, drop_length_takeWhile]
  split
  · rename_i f found
    obtain ⟨elsewhere, found⟩ := Option.ite_none_left_eq_some.mp found
    obtain ⟨-, -, -, -, pos⟩ := fraction?_eq_some found
    have length : (fraction ++ exponent).length = f.length := by rw [length, found]; rfl
    have taken : (first :: rest).take ((rest.takeWhile Char.isDigit).length + 1 + f.length) =
        (first :: rest.takeWhile Char.isDigit) ++ (fraction ++ exponent) := by
      rw [split, hmore, ← List.append_assoc fraction, ← List.append_assoc, ← length]
      exact List.take_left' (List.length_append ..)
    refine ⟨_, _, more, [], ?_, congrArg (lx.emit · _ _) ?_, congrArg lx.rangeOf taken,
      fun h => absurd h elsewhere, fun _ => full, ?_⟩
    · rw [split, hmore, List.append_assoc, List.append_assoc]
    · rw [List.length_append, length]
      rfl
    · refine iff_of_true rfl (mt digits.mp fun nil => ?_)
      rw [← length, nil] at pos
      exact Nat.lt_irrefl 0 pos
  · rename_i found
    obtain ⟨t, errors, hscan, range, kind⟩ := lx.integer_eq (first :: rest.takeWhile Char.isDigit)
      (positional 10 (first :: rest.takeWhile Char.isDigit))
    refine ⟨t, _, _, errors, split, hscan, range, fun _ => ⟨List.cons_ne_nil _ _, run⟩, fun elsewhere => ?_, ?_⟩
    · have nothing : fraction ++ exponent = [] := by
        rw [elsewhere] at found
        rw [← List.length_eq_zero_iff, length]
        exact congrArg (Option.elim · 0 Fraction.length) found
      rw [nothing, List.append_nil] at full
      rw [← List.append_assoc, nothing] at hmore
      rw [hmore]
      exact full
    · exact iff_of_false kind (fun some => some run.all)

end Lexer

end BraceLang
