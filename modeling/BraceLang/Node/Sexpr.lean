import BraceLang.Decimal.Shortest
import BraceLang.Node
import BraceLang.Text.Quoted

/-! Syntax trees as parenthesised text: `a + b * c` is shown as `(+ a (* b c))`, and a declaration has
    its name in its head. -/

namespace BraceLang

namespace Shape

/-- The text of a construct that is shown without parentheses. -/
def atom? {α : Type} : Shape α → Option String
  | bool b => some (if b then "true" else "false")
  | int n => some (toString n)
  | float x => some x.text
  | char c => some (Text.Quoted.char c)
  | str s => some (Text.Quoted.string s)
  | null => some "null"
  | name text => some text
  | dot n => some s!".{n.text}"
  | prim kind => some kind.text
  | named head path [] => some (".".intercalate ((head :: path).map (·.text)))
  | _ => none

/-- What stands first between the parentheses. -/
def head {α : Type} (s : Shape α) : String :=
  match s with
  | prefixed op _ => s!"pre{op.text}"
  | postfixed op _ => s!"post{op.text}"
  | binary op .. | assign op .. => op.text
  | member _ _ o => if o then "?." else "."
  | ternary .. => "?"
  | named head path _ => ".".intercalate ((head :: path).map (·.text))
  | pointer true _ => "ptr-const"
  | closure true .. => "async-closure"
  | var _ _ isConst pattern _ _ =>
    let names := ",".intercalate (pattern.names.map (·.text))
    let names := if pattern.isTuple then s!"({names})" else names
    (if isConst then "const " else "var ") ++ names
  | s =>
    match s.declaredName? with
    | some n => s!"{s.tag} {n.text}"
    | none => s.tag

/-- The texts of the parts as they are shown; the middle part that a conditional may lack leaves a mark. -/
def shownParts : Shape String → List String
  | ternary c t e => [c, t.getD "_", e]
  | s => s.toList

end Shape

/-- A tree as parenthesised text. -/
def Node.sexpr (n : Node) : String :=
  n.fold fun n parts =>
    match n.shape.atom? with
    | some text => text
    | none => "(" ++ " ".intercalate (n.shape.head :: (parts.map (·.2)).shownParts) ++ ")"

end BraceLang
