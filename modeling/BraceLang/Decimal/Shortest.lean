import BraceLang.Decimal.Double

/-! The text of a floating-point number: the fewest decimal digits that read back as the same number,
    and of those the nearest. The digits are found by exact arithmetic. For 1, 2, … 17 digits the two
    neighbours of the number on that decimal grid are tried, and the first grid with a neighbour that
    rounds to the number wins. -/

namespace BraceLang.Decimal

/-- The number `digits · 10 ^ exponent`. -/
structure Scientific where
  digits : Nat
  exponent : Int
deriving DecidableEq

/-- The numbers that round to a given one: all are fractions over `den`, from `low` to `high`, and
    `value` is the number itself. The two ends belong to it exactly when `closed`. -/
structure Interval where
  low : Nat
  value : Nat
  high : Nat
  den : Nat
  closed : Bool

/-- The interval of a positive finite number. Below a power of two the numbers lie twice as dense, so
    that half of the interval is half as wide. -/
def Double.interval (x : Double) : Interval :=
  let quarter := x.exponent - 2
  let unit := Nat.pow 2 quarter.toNat
  let below := if x.mantissaField = 0 && 1 < x.exponentField then 1 else 2
  { low := (4 * x.mantissa - below) * unit
    value := 4 * x.mantissa * unit
    high := (4 * x.mantissa + 2) * unit
    den := Nat.pow 2 (-quarter).toNat
    closed := x.mantissa % 2 = 0 }

/-- The least `k` with `num / den < 10 ^ k`, both being positive. -/
def decimalMagnitude (num den : Nat) : Int :=
  if den ≤ num then digitCount (num / den) else 1 - digitCount ((den - 1) / num)

namespace Interval

/-- Whether `n / den` lies in the interval. -/
def contains (i : Interval) (n : Nat) : Bool :=
  if i.closed then i.low ≤ n && n ≤ i.high else i.low < n && n < i.high

/-- The same interval with every number multiplied by `10 ^ power`. -/
def scale (i : Interval) (power : Int) : Interval :=
  let up := Nat.pow 10 power.toNat
  { i with
    low := i.low * up
    value := i.value * up
    high := i.high * up
    den := i.den * Nat.pow 10 (-power).toNat }

/-- The whole number in the interval that is nearest to its value, if one of the value's two
    neighbours is in it; of two equally near, the greater. -/
def wholeNumber? (i : Interval) : Option Nat :=
  let below := i.value / i.den
  let above := below + 1
  let fits (n : Nat) := i.contains (n * i.den)
  if fits below && (!fits above || 2 * (i.value % i.den) < i.den) then some below
  else if fits above then some above
  else none

/-- The decimal with the fewest digits in the interval. -/
def shortest (i : Interval) : Scientific :=
  let magnitude := decimalMagnitude i.value i.den
  let grid (count : Nat) : Option Scientific :=
    let power : Int := count - magnitude
    (i.scale power).wholeNumber?.map (⟨·, -power⟩)
  ((List.range' 1 17).findSome? grid).getD ⟨0, 0⟩

end Interval

/-- How numbers are laid out: below `least` and from `greatest` on, as powers of ten, a number is
    written with an exponent, and otherwise by position. -/
structure Layout where
  least : Int
  greatest : Int

/-- Numbers from 10^-4 up to but not including 10^16 are written by position. -/
def layout : Layout := ⟨-4, 16⟩

/-- The digits of a decimal with the zeros at the end left out. -/
def Scientific.significand (d : Scientific) : List Char :=
  ((Nat.toDigits 10 d.digits).reverse.dropWhile (· == '0')).reverse

/-- Writes `0.d₁d₂… · 10 ^ point`. The point always has a digit on both sides unless an exponent
    follows. -/
def Layout.write (l : Layout) (digits : List Char) (point : Int) : List Char :=
  if point - 1 < l.least || l.greatest ≤ point - 1 then
    let exponent := (toString (point - 1)).toList
    match digits with
    | [d] => d :: 'e' :: exponent
    | d :: rest => d :: '.' :: rest ++ 'e' :: exponent
    | [] => []
  else if point ≤ 0 then
    '0' :: '.' :: List.replicate (-point).toNat '0' ++ digits
  else
    let whole := digits.take point.toNat
    let zeros := List.replicate (point.toNat - whole.length) '0'
    match digits.drop point.toNat with
    | [] => whole ++ zeros ++ ['.', '0']
    | fraction => whole ++ '.' :: fraction

/-- The text of a number. -/
def Double.text (x : Double) : String :=
  if x.isInfinite then "inf"
  else if x.mantissa = 0 then "0.0"
  else
    let d := x.interval.shortest
    let point : Int := (Nat.toDigits 10 d.digits).length + d.exponent
    String.ofList (layout.write d.significand point)

end BraceLang.Decimal
