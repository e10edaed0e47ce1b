import BraceLang.Text.Extending
import BraceLang.Text.Unprintable

/-! Quoted text: a string or character written so that it can be shown on one line. Quote marks,
    backslashes and control characters get a backslash form; a character that has no visible form of
    its own, or that would attach to its neighbour, is written by its code point in hexadecimal. -/

namespace BraceLang.Text.Quoted

/-- Which quote marks get a backslash. -/
structure Marks where
  single : Bool
  double : Bool

/-- A character by its code point, as in `\u{a0}`. -/
def codePoint (c : Char) : List Char :=
  ['\\', 'u', '\x7b'] ++ Nat.toDigits 16 c.toNat ++ ['\x7d']

/-- One character of quoted text. -/
def escape (marks : Marks) (c : Char) : List Char :=
  match c with
  | '\x00' => ['\\', '0']
  | '\t' => ['\\', 't']
  | '\r' => ['\\', 'r']
  | '\n' => ['\\', 'n']
  | '\\' => ['\\', '\\']
  | '"' => if marks.double then ['\\', '"'] else ['"']
  | '\x27' => if marks.single then ['\\', '\x27'] else ['\x27']
  | c => if isExtending c || !isPrintable c then codePoint c else [c]

/-- A string between double quotes. -/
def string (s : String) : String :=
  String.ofList ('"' :: s.toList.flatMap (escape ⟨false, true⟩) ++ ['"'])

/-- A character between single quotes. -/
def char (c : Char) : String :=
  String.ofList ('\x27' :: escape ⟨true, false⟩ c ++ ['\x27'])

/-- A character inside running text, where either quote mark could end it. -/
def bare (c : Char) : String :=
  String.ofList (escape ⟨true, true⟩ c)

end BraceLang.Text.Quoted
