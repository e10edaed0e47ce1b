/-! Escapes in character literals: what the characters after a backslash stand for. -/

namespace BraceLang

/-- The value of a digit in any base up to sixteen. -/
def digitValue? (c : Char) : Option Nat :=
  if '0' ≤ c ∧ c ≤ '9' then some (c.toNat - '0'.toNat)
  else if 'a' ≤ c ∧ c ≤ 'f' then some (c.toNat - 'a'.toNat + 10)
  else if 'A' ≤ c ∧ c ≤ 'F' then some (c.toNat - 'A'.toNat + 10)
  else none

/-- Whether a character is a digit in the given base, which is at most sixteen. -/
def isDigitIn (base : Nat) (c : Char) : Bool :=
  (digitValue? c).any (· < base)

/-- The number that digits of the given base spell. -/
def positional (base : Nat) (digits : List Char) : Nat :=
  digits.foldl (fun n c => n * base + (digitValue? c).getD 0) 0

/-- A decoded escape. -/
structure Escape where
  value : Char
  /-- The number of characters after the backslash that belong to it. -/
  length : Nat
  /-- An unknown escape stands for its first character. -/
  known : Bool
deriving DecidableEq

/-- Decodes the escape at the start of `cs`, the text after a backslash. Two hexadecimal digits may
    follow `x`, and up to three octal digits stand alone; a backslash at the end of the text is taken
    for itself. -/
def Escape.decode (cs : List Char) : Escape :=
  match cs with
  | [] => ⟨'\\', 0, true⟩
  | 'x' :: rest =>
    let digits := (rest.take 2).takeWhile (isDigitIn 16)
    if digits.isEmpty then ⟨'x', 1, false⟩
    else ⟨Char.ofNat (positional 16 digits), 1 + digits.length, true⟩
  | 'n' :: _ => ⟨'\n', 1, true⟩
  | 't' :: _ => ⟨'\t', 1, true⟩
  | 'v' :: _ => ⟨'\x0b', 1, true⟩
  | 'r' :: _ => ⟨'\r', 1, true⟩
  | 'a' :: _ => ⟨'\x07', 1, true⟩
  | 'b' :: _ => ⟨'\x08', 1, true⟩
  | c :: _ =>
    if isDigitIn 8 c then
      let digits := (cs.take 3).takeWhile (isDigitIn 8)
      ⟨Char.ofNat (positional 8 digits), digits.length, true⟩
    else ⟨c, 1, c = '\\' ∨ c = '$' ∨ c = '\x27' ∨ c = '"'⟩

end BraceLang
