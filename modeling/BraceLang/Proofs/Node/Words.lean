import BraceLang.Node

/-! The words of a tree: its names, literals and primitive types in source order. A construct is a
    sequence of pieces, each a word of its own or one of its parts (`Shape.pieces`), and the words of a
    tree are read off the pieces of its nodes (`Node.words`). -/

namespace BraceLang

/-- A piece of text that says more than its kind does. -/
inductive Word where
  | name (text : String)
  | bool (value : Bool)
  | int (value : Nat)
  | float (value : Decimal.Double)
  | char (value : Char)
  | str (value : String)
  | null
  /-- A keyword that names a primitive type. -/
  | prim (kind : Kind)
deriving DecidableEq

/-- What a construct consists of: its own words and its parts. -/
inductive Piece (α : Type) where
  | word (word : Word)
  | part (part : α)

/-- A name as a piece of the construct that holds it. -/
def Ident.piece {α : Type} (name : Ident) : Piece α := .word (.name name.text)

/-- The piece with `f` applied to a part. -/
def Piece.map {α β : Type} (f : α → β) : Piece α → Piece β
  | .word w => .word w
  | .part x => .part (f x)

/-- The pieces of a construct in source order. The name of an operator overload is not written. -/
def Shape.pieces {α : Type} : Shape α → List (Piece α)
  | .bool v => [.word (.bool v)]
  | .int v => [.word (.int v)]
  | .float v => [.word (.float v)]
  | .char v => [.word (.char v)]
  | .str v => [.word (.str v)]
  | .null => [.word .null]
  | .name text => [.word (.name text)]
  | .dot n => [n.piece]
  | .fieldInit n value => [n.piece, .part value]
  | .param n type default => n.piece :: (type.toList ++ default.toList).map .part
  | .var attrs _ _ pattern type init =>
    attrs.map .part ++ pattern.names.map Ident.piece ++ (type.toList ++ init.toList).map .part
  | .func attrs _ _ n operator generics sig body =>
    attrs.map .part ++ (if operator.isSome then [] else [n.piece]) ++
      (generics ++ sig :: body.toList).map .part
  | .typeAlias attrs _ n generics type => attrs.map .part ++ n.piece :: (generics ++ [type]).map .part
  | .union attrs _ n generics members | .struct attrs _ n generics members =>
    attrs.map .part ++ n.piece :: (generics ++ members).map .part
  | .enum attrs _ n base options => attrs.map .part ++ n.piece :: (base.toList ++ options).map .part
  | .enumOption attrs n value => attrs.map .part ++ n.piece :: value.toList.map .part
  | .field attrs _ n type default => attrs.map .part ++ n.piece :: (type :: default.toList).map .part
  | .generic n constraints => n.piece :: constraints.map .part
  | .prim kind => [.word (.prim kind)]
  | .named head path args => (head :: path).map Ident.piece ++ args.map .part
  | shape => shape.toList.map .part

theorem Shape.pieces_map {α β : Type} (f : α → β) (s : Shape α) :
    (s.map f).pieces = s.pieces.map (Piece.map f) := by
  cases s
  all_goals simp [Shape.map, Shape.pieces, Shape.toList, Piece.map, Ident.piece, Option.toList_map,
    Function.comp_def]
  split <;> simp [Piece.map]

/-- The parts among the pieces of a construct are its parts. -/
theorem Shape.part_mem_pieces {α : Type} {s : Shape α} {x : α} :
    .part x ∈ s.pieces ↔ x ∈ s.toList := by
  cases s
  all_goals simp [Shape.pieces, Shape.toList, Ident.piece]

/-- The words of a tree in source order. -/
def Node.words (n : Node) : List Word :=
  n.fold fun _ parts => parts.pieces.flatMap fun
    | .word w => [w]
    | .part x => x.2

/-- The words of a piece. -/
def Piece.words : Piece Node → List Word
  | .word w => [w]
  | .part n => n.words

theorem Node.words_eq (n : Node) : n.words = n.shape.pieces.flatMap Piece.words := by
  rw [words, fold_eq, Shape.pieces_map, List.flatMap_map]
  congr 1
  funext piece
  cases piece <;> rfl

/-- The words of a program in source order. -/
def Program.words (p : Program) : List Word := p.items.flatMap Node.words

end BraceLang
