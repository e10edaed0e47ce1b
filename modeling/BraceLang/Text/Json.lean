/-! JSON documents and their indented text. Objects keep their fields in the order given. -/

namespace BraceLang.Text

/-- A JSON document, as far as reports need one. -/
inductive Json where
  | bool (value : Bool)
  | num (value : Nat)
  | str (value : String)
  | arr (items : List Json)
  | obj (fields : List (String × Json))

namespace Json

/-- Four hexadecimal digits. -/
def hex4 (n : Nat) : List Char :=
  let digits := Nat.toDigits 16 n
  List.replicate (4 - digits.length) '0' ++ digits

/-- One character of a string: quotes, backslashes and controls are escaped, all else is itself. -/
def escape (c : Char) : List Char :=
  match c with
  | '"' => ['\\', '"']
  | '\\' => ['\\', '\\']
  | '\x08' => ['\\', 'b']
  | '\x0c' => ['\\', 'f']
  | '\n' => ['\\', 'n']
  | '\r' => ['\\', 'r']
  | '\t' => ['\\', 't']
  | c => if c.toNat < 0x20 then '\\' :: 'u' :: hex4 c.toNat else [c]

/-- A string between quotes. -/
def quoted (s : String) : String :=
  String.ofList ('"' :: s.toList.flatMap escape ++ ['"'])

/-- A line break and the indentation of `depth` levels, two spaces each. -/
def newline (depth : Nat) : String :=
  String.ofList ('\n' :: List.replicate (2 * depth) ' ')

/-- Items between brackets, each on a line of its own; nothing between them if there are none. -/
def enclose (opening closing : String) (depth : Nat) (items : List String) : String :=
  match items with
  | [] => opening ++ closing
  | items =>
    let lines := items.map (newline (depth + 1) ++ ·)
    opening ++ ",".intercalate lines ++ newline depth ++ closing

mutual

/-- The text of a document that stands `depth` levels deep. -/
def pretty (depth : Nat) : Json → String
  | .bool b => if b then "true" else "false"
  | .num n => toString n
  | .str s => quoted s
  | .arr items => enclose "[" "]" depth (prettyItems (depth + 1) items)
  | .obj fields => enclose "\x7b" "\x7d" depth (prettyFields (depth + 1) fields)

/-- The texts of array items. -/
def prettyItems (depth : Nat) : List Json → List String
  | [] => []
  | item :: items => pretty depth item :: prettyItems depth items

/-- The texts of object fields. -/
def prettyFields (depth : Nat) : List (String × Json) → List String
  | [] => []
  | (name, value) :: fields =>
    (quoted name ++ ": " ++ pretty depth value) :: prettyFields depth fields

end

end Json

end BraceLang.Text
