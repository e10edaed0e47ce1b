import BraceLang.Decimal.Double
import BraceLang.Source.Location
import BraceLang.Token.Role

/-! Tokens: a kind, the range it was read from, and what a literal or name says. -/

namespace BraceLang

/-- What a token says beyond its kind. -/
inductive Payload where
  | bool (value : Bool)
  | int (value : Nat)
  | float (value : Decimal.Double)
  | char (value : Char)
  | text (value : String)
deriving DecidableEq

/-- A piece of source text with a meaning of its own. -/
structure Token where
  kind : Kind
  range : Range
  payload : Option Payload
deriving DecidableEq

namespace Token

/-- A token that its kind says all about. -/
def bare (kind : Kind) (range : Range) : Token := ⟨kind, range, none⟩

/-- The text of a name, string or template segment; empty for other tokens. -/
def text (t : Token) : String :=
  match t.payload with
  | some (.text s) => s
  | _ => ""

/-- The value of an integer; zero for other tokens. -/
def int (t : Token) : Nat :=
  match t.payload with
  | some (.int n) => n
  | _ => 0

end Token

end BraceLang
