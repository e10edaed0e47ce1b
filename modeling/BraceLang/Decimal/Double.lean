/-! Binary floating-point numbers of 64 bits, as far as literals need them: zero, the positive finite
    numbers and infinity. A number is held by its bit pattern, so two are equal exactly when their
    patterns are, and every operation is exact arithmetic on natural numbers.

    A finite number is `mantissa · 2 ^ exponent`, the exponent being at least -1074 and the mantissa
    below 2 ^ 53. Ordering patterns as numbers orders the values, which is why rounding may carry from
    the mantissa into the exponent field without a special case. -/

namespace BraceLang.Decimal

/-- A nonnegative 64-bit floating-point number. -/
structure Double where
  bits : UInt64
deriving DecidableEq

/-- Number of stored mantissa bits. -/
def mantissaBits : Nat := 52

/-- The exponent of the smallest positive number, where the mantissa is 1. -/
def leastExponent : Int := -1074

/-- The bit pattern of infinity: the exponent field is full and the mantissa field empty. -/
def infinityBits : Nat := 2047 * Nat.pow 2 mantissaBits

namespace Double

/-- The number zero. -/
def zero : Double := ⟨0⟩

/-- What a literal too large for a finite number stands for. -/
def infinity : Double := ⟨UInt64.ofNat infinityBits⟩

/-- The exponent field of the pattern. -/
def exponentField (x : Double) : Nat := x.bits.toNat / Nat.pow 2 mantissaBits

/-- The mantissa field of the pattern. -/
def mantissaField (x : Double) : Nat := x.bits.toNat % Nat.pow 2 mantissaBits

/-- Whether the number is infinite. -/
def isInfinite (x : Double) : Bool := infinityBits ≤ x.bits.toNat

/-- The whole number that is multiplied by a power of two. -/
def mantissa (x : Double) : Nat :=
  if x.exponentField = 0 then x.mantissaField else x.mantissaField + Nat.pow 2 mantissaBits

/-- The power of two that the mantissa is multiplied by. -/
def exponent (x : Double) : Int :=
  if x.exponentField = 0 then leastExponent else leastExponent + (x.exponentField - 1)

end Double

/-- The quotient `num / den` rounded to a whole number, a half going to the even neighbour. -/
def roundDiv (num den : Nat) : Nat :=
  let quotient := num / den
  let twice := 2 * (num % den)
  if twice < den then quotient
  else if twice > den then quotient + 1
  else quotient + quotient % 2

/-- The greatest `k` with `2 ^ k ≤ num / den`, both being positive. -/
def binaryMagnitude (num den : Nat) : Int :=
  let estimate : Int := (Nat.log2 num : Int) - Nat.log2 den
  if den * Nat.pow 2 estimate.toNat ≤ num * Nat.pow 2 (-estimate).toNat then estimate else estimate - 1

/-- The number nearest to `num / den`, a tie going to the even mantissa. -/
def Double.ofRatio (num den : Nat) : Double :=
  if num = 0 then .zero
  else
    let exponent := max (binaryMagnitude num den - mantissaBits) leastExponent
    let mantissa := roundDiv (num * Nat.pow 2 (-exponent).toNat) (den * Nat.pow 2 exponent.toNat)
    let bits := mantissa + (exponent - leastExponent).toNat * Nat.pow 2 mantissaBits
    if bits < infinityBits then ⟨UInt64.ofNat bits⟩ else .infinity

/-- The number of decimal digits of `n`; none for zero. -/
def digitCount (n : Nat) : Nat :=
  if n = 0 then 0 else (Nat.toDigits 10 n).length

/-- No finite number other than zero is as large as ten to this power, or as small as ten to its
    negative. -/
def decimalRange : Nat := 400

/-- The number nearest to `digits · 10 ^ exponent`. -/
def Double.ofDecimal (digits : Nat) (exponent : Int) : Double :=
  let magnitude : Int := digitCount digits + exponent
  if digits = 0 || magnitude < -decimalRange then .zero
  else if magnitude > decimalRange then .infinity
  else .ofRatio (digits * Nat.pow 10 exponent.toNat) (Nat.pow 10 (-exponent).toNat)

end BraceLang.Decimal
