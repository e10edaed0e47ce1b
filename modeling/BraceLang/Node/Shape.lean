import BraceLang.Decimal.Double
import BraceLang.Source.Location
import BraceLang.Token.Role

/-! Shapes of syntax nodes: for each construct of the language, what it says itself and which parts it
    has. A shape is given over the type of its parts, so it can hold nodes as well as whatever has been
    computed from them; `toList` gives the parts in source order, and `map` and `traverse` go through
    them in that order. -/

namespace BraceLang

/-- A name as written in the source. -/
structure Ident where
  text : String
  range : Range
deriving DecidableEq

/-- The markers before a declaration. -/
structure Modifiers where
  exported : Bool
  sealed : Bool
deriving DecidableEq

/-- No marker. -/
def Modifiers.none : Modifiers := ⟨false, false⟩

/-- What a variable declaration gives a value to. -/
inductive Pattern where
  /-- One name. -/
  | single (name : Ident)
  /-- The elements of a tuple. -/
  | tuple (first : Ident) (others : List Ident)
deriving DecidableEq

/-- The declared names in order. -/
def Pattern.names : Pattern → List Ident
  | single name => [name]
  | tuple first others => first :: others

/-- Whether the declaration takes a tuple apart. -/
def Pattern.isTuple : Pattern → Bool
  | single _ => false
  | tuple .. => true

/-- The constructs of the language, with parts of type `α`. -/
inductive Shape (α : Type) where
  -- literals
  | bool (value : Bool)
  | int (value : Nat)
  | float (value : Decimal.Double)
  | char (value : Char)
  | str (value : String)
  | null
  /-- Strings for the text of a template and expressions for its holes. -/
  | template (parts : List α)
  -- expressions
  | name (text : String)
  | group (expr : α)
  | prefixed (op : Kind) (operand : α)
  | postfixed (op : Kind) (operand : α)
  | binary (op : Kind) (lhs rhs : α)
  /-- A choice `c ? t : f`, or `c ?: f` without a middle part. -/
  | ternary (condition : α) (whenTrue : Option α) (whenFalse : α)
  | assign (op : Kind) (target value : α)
  | call (callee : α) (args : List α)
  /-- A call `name!` without parentheses. -/
  | macroName (target : α)
  | macroCall (target : α) (args : List α)
  | spread (expr : α)
  | yield (value : Option α)
  | new (type : α) (args : List α)
  /-- Indexing or the arguments of a generic. -/
  | index (target : α) (args : List α)
  /-- A bare `.name`, which gets its meaning from the context. -/
  | dot (name : Ident)
  /-- A selection `target.member`, or `target?.member` if `optional`. -/
  | member (target member : α) (optional : Bool)
  | tuple (elements : List α)
  | structLiteral (path : α) (fields : List α)
  | fieldInit (name : Ident) (value : α)
  | array (elements : List α)
  | cast (expr type : α)
  | closure (isAsync : Bool) (signature body : α)
  | signature (params : List α) (result : Option α)
  | param (name : Ident) (type default : Option α)
  -- declarations
  | var (attributes : List α) (modifiers : Modifiers) (isConst : Bool) (pattern : Pattern)
    (type init : Option α)
  /-- A function; one that overloads an operator has the name of the overload. -/
  | func (attributes : List α) (modifiers : Modifiers) (isAsync : Bool) (name : Ident)
    (operator : Option Kind) (generics : List α) (signature : α) (body : Option α)
  | typeAlias (attributes : List α) (modifiers : Modifiers) (name : Ident) (generics : List α) (type : α)
  | union (attributes : List α) (modifiers : Modifiers) (name : Ident) (generics : List α)
    (members : List α)
  | enum (attributes : List α) (modifiers : Modifiers) (name : Ident) (base : Option α)
    (options : List α)
  | enumOption (attributes : List α) (name : Ident) (value : Option α)
  | struct (attributes : List α) (modifiers : Modifiers) (name : Ident) (generics : List α)
    (members : List α)
  | field (attributes : List α) (isPrivate : Bool) (name : Ident) (type : α) (default : Option α)
  | generic (name : Ident) (constraints : List α)
  -- statements
  | exprStmt (expr : α)
  | block (statements : List α)
  /-- The condition may be a variable declaration. -/
  | ifElse (condition thenBranch : α) (elseBranch : Option α)
  | whileLoop (condition body : α)
  | forLoop (init condition step : Option α) (body : α)
  | deferred (stmt : α)
  | returned (value : Option α)
  | continued
  | broken
  -- types
  | prim (kind : Kind)
  /-- A dotted path, and arguments if the type is generic. -/
  | named (head : Ident) (path : List Ident) (args : List α)
  | tupleType (elements : List α)
  | arrayType (element : α) (size : Option α)
  | funcType (params : List α) (result : Option α)
  | pointer (isConst : Bool) (pointee : α)
  | optional (inner : α)
deriving DecidableEq

namespace Shape

/-- A short name for the construct. -/
def tag {α : Type} : Shape α → String
  | bool .. => "bool"
  | int .. => "int"
  | float .. => "float"
  | char .. => "char"
  | str .. => "str"
  | null => "null"
  | template .. => "strexpr"
  | name .. => "ident"
  | group .. => "group"
  | prefixed .. => "prefix"
  | postfixed .. => "postfix"
  | binary .. => "binary"
  | ternary .. => "ternary"
  | assign .. => "assign"
  | call .. => "call"
  | macroName .. | macroCall .. => "macro"
  | spread .. => "spread"
  | yield .. => "yield"
  | new .. => "new"
  | index .. => "index"
  | dot .. => "dot"
  | member .. => "member"
  | tuple .. => "tuple"
  | structLiteral .. => "struct-lit"
  | fieldInit .. => "field-init"
  | array .. => "array"
  | cast .. => "as"
  | closure .. => "closure"
  | signature .. => "sig"
  | param .. => "param"
  | var .. => "var"
  | func .. => "func"
  | typeAlias .. => "alias"
  | union .. => "union"
  | enum .. => "enum"
  | enumOption .. => "option"
  | struct .. => "struct"
  | field .. => "field"
  | generic .. => "generic"
  | exprStmt .. => "expr-stmt"
  | block .. => "block"
  | ifElse .. => "if"
  | whileLoop .. => "while"
  | forLoop .. => "for"
  | deferred .. => "defer"
  | returned .. => "return"
  | continued => "continue"
  | broken => "break"
  | prim .. => "prim"
  | named .. => "type"
  | tupleType .. => "tuple-type"
  | arrayType .. => "array-type"
  | funcType .. => "func-type"
  | pointer .. => "ptr"
  | optional .. => "optional"

/-- The name that a declaration introduces; of a tuple, the first. -/
def declaredName? {α : Type} : Shape α → Option Ident
  | var _ _ _ pattern _ _ => pattern.names.head?
  | func _ _ _ n .. | typeAlias _ _ n .. | union _ _ n .. | enum _ _ n ..
  | struct _ _ n .. | enumOption _ n .. | field _ _ n .. | generic n .. | param n .. =>
    some n
  | _ => none

/-- The parts in source order. -/
def toList {α : Type} : Shape α → List α
  | bool _ | int _ | float _ | char _ | str _ | null | name _ | dot _ | continued | broken | prim _ => []
  | template list | tuple list | array list | block list | tupleType list | generic _ list
  | named _ _ list => list
  | group x | prefixed _ x | postfixed _ x | spread x | fieldInit _ x | exprStmt x | deferred x
  | pointer _ x | optional x | macroName x => [x]
  | yield x | returned x => x.toList
  | binary _ x y | assign _ x y | member x y _ | cast x y | closure _ x y | whileLoop x y => [x, y]
  | ternary c t f => c :: t.toList ++ [f]
  | call x list | new x list | index x list | structLiteral x list | macroCall x list => x :: list
  | signature list x | funcType list x => list ++ x.toList
  | param _ x y => x.toList ++ y.toList
  | var list _ _ _ x y => list ++ x.toList ++ y.toList
  | func list _ _ _ _ generics sig body => list ++ generics ++ sig :: body.toList
  | typeAlias list _ _ generics x => list ++ generics ++ [x]
  | union list _ _ generics members | struct list _ _ generics members => list ++ generics ++ members
  | enum list _ _ base options => list ++ base.toList ++ options
  | enumOption list _ x => list ++ x.toList
  | field list _ _ x y => list ++ x :: y.toList
  | ifElse c t e => c :: t :: e.toList
  | forLoop i c s body => i.toList ++ c.toList ++ s.toList ++ [body]
  | arrayType x size => x :: size.toList

/-- The same construct with `f` applied to every part. -/
def map {α β : Type} (f : α → β) : Shape α → Shape β
  | bool v => bool v
  | int v => int v
  | float v => float v
  | char v => char v
  | str v => str v
  | null => null
  | template parts => template (parts.map f)
  | name text => name text
  | group x => group (f x)
  | prefixed op x => prefixed op (f x)
  | postfixed op x => postfixed op (f x)
  | binary op x y => binary op (f x) (f y)
  | ternary c t e => ternary (f c) (t.map f) (f e)
  | assign op x y => assign op (f x) (f y)
  | call x args => call (f x) (args.map f)
  | macroName x => macroName (f x)
  | macroCall x args => macroCall (f x) (args.map f)
  | spread x => spread (f x)
  | yield x => yield (x.map f)
  | new x args => new (f x) (args.map f)
  | index x args => index (f x) (args.map f)
  | dot n => dot n
  | member x y o => member (f x) (f y) o
  | tuple xs => tuple (xs.map f)
  | structLiteral x fields => structLiteral (f x) (fields.map f)
  | fieldInit n x => fieldInit n (f x)
  | array xs => array (xs.map f)
  | cast x y => cast (f x) (f y)
  | closure isAsync x y => closure isAsync (f x) (f y)
  | signature params x => signature (params.map f) (x.map f)
  | param n x y => param n (x.map f) (y.map f)
  | var attrs mods isConst pattern x y => var (attrs.map f) mods isConst pattern (x.map f) (y.map f)
  | func attrs mods isAsync n op generics sig body =>
    func (attrs.map f) mods isAsync n op (generics.map f) (f sig) (body.map f)
  | typeAlias attrs mods n generics x => typeAlias (attrs.map f) mods n (generics.map f) (f x)
  | union attrs mods n generics xs => union (attrs.map f) mods n (generics.map f) (xs.map f)
  | enum attrs mods n base xs => enum (attrs.map f) mods n (base.map f) (xs.map f)
  | enumOption attrs n x => enumOption (attrs.map f) n (x.map f)
  | struct attrs mods n generics xs => struct (attrs.map f) mods n (generics.map f) (xs.map f)
  | field attrs isPrivate n x y => field (attrs.map f) isPrivate n (f x) (y.map f)
  | generic n xs => generic n (xs.map f)
  | exprStmt x => exprStmt (f x)
  | block xs => block (xs.map f)
  | ifElse c t e => ifElse (f c) (f t) (e.map f)
  | whileLoop c body => whileLoop (f c) (f body)
  | forLoop i c s body => forLoop (i.map f) (c.map f) (s.map f) (f body)
  | deferred x => deferred (f x)
  | returned x => returned (x.map f)
  | continued => continued
  | broken => broken
  | prim kind => prim kind
  | named head path args => named head path (args.map f)
  | tupleType xs => tupleType (xs.map f)
  | arrayType x size => arrayType (f x) (size.map f)
  | funcType params x => funcType (params.map f) (x.map f)
  | pointer isConst x => pointer isConst (f x)
  | optional x => optional (f x)

/-- The same construct with every part replaced by what `f` gives for it, in source order. -/
def traverse {m : Type → Type} [Monad m] {α β : Type} (f : α → m β) : Shape α → m (Shape β)
  | bool v => return bool v
  | int v => return int v
  | float v => return float v
  | char v => return char v
  | str v => return str v
  | null => return null
  | template parts => return template (← parts.mapM f)
  | name text => return name text
  | group x => return group (← f x)
  | prefixed op x => return prefixed op (← f x)
  | postfixed op x => return postfixed op (← f x)
  | binary op x y => return binary op (← f x) (← f y)
  | ternary c t e => return ternary (← f c) (← t.mapM f) (← f e)
  | assign op x y => return assign op (← f x) (← f y)
  | call x args => return call (← f x) (← args.mapM f)
  | macroName x => return macroName (← f x)
  | macroCall x args => return macroCall (← f x) (← args.mapM f)
  | spread x => return spread (← f x)
  | yield x => return yield (← x.mapM f)
  | new x args => return new (← f x) (← args.mapM f)
  | index x args => return index (← f x) (← args.mapM f)
  | dot n => return dot n
  | member x y o => return member (← f x) (← f y) o
  | tuple xs => return tuple (← xs.mapM f)
  | structLiteral x fields => return structLiteral (← f x) (← fields.mapM f)
  | fieldInit n x => return fieldInit n (← f x)
  | array xs => return array (← xs.mapM f)
  | cast x y => return cast (← f x) (← f y)
  | closure isAsync x y => return closure isAsync (← f x) (← f y)
  | signature params x => return signature (← params.mapM f) (← x.mapM f)
  | param n x y => return param n (← x.mapM f) (← y.mapM f)
  | var attrs mods isConst pattern x y =>
    return var (← attrs.mapM f) mods isConst pattern (← x.mapM f) (← y.mapM f)
  | func attrs mods isAsync n op generics sig body =>
    return func (← attrs.mapM f) mods isAsync n op (← generics.mapM f) (← f sig) (← body.mapM f)
  | typeAlias attrs mods n generics x =>
    return typeAlias (← attrs.mapM f) mods n (← generics.mapM f) (← f x)
  | union attrs mods n generics xs =>
    return union (← attrs.mapM f) mods n (← generics.mapM f) (← xs.mapM f)
  | enum attrs mods n base xs =>
    return enum (← attrs.mapM f) mods n (← base.mapM f) (← xs.mapM f)
  | enumOption attrs n x => return enumOption (← attrs.mapM f) n (← x.mapM f)
  | struct attrs mods n generics xs =>
    return struct (← attrs.mapM f) mods n (← generics.mapM f) (← xs.mapM f)
  | field attrs isPrivate n x y =>
    return field (← attrs.mapM f) isPrivate n (← f x) (← y.mapM f)
  | generic n xs => return generic n (← xs.mapM f)
  | exprStmt x => return exprStmt (← f x)
  | block xs => return block (← xs.mapM f)
  | ifElse c t e => return ifElse (← f c) (← f t) (← e.mapM f)
  | whileLoop c body => return whileLoop (← f c) (← f body)
  | forLoop i c s body => return forLoop (← i.mapM f) (← c.mapM f) (← s.mapM f) (← f body)
  | deferred x => return deferred (← f x)
  | returned x => return returned (← x.mapM f)
  | continued => return continued
  | broken => return broken
  | prim kind => return prim kind
  | named head path args => return named head path (← args.mapM f)
  | tupleType xs => return tupleType (← xs.mapM f)
  | arrayType x size => return arrayType (← f x) (← size.mapM f)
  | funcType params x => return funcType (← params.mapM f) (← x.mapM f)
  | pointer isConst x => return pointer isConst (← f x)
  | optional x => return optional (← f x)

theorem map_id {α : Type} (s : Shape α) : s.map id = s := by
  cases s <;> simp [map]

theorem toList_map {α β : Type} (f : α → β) (s : Shape α) : (s.map f).toList = s.toList.map f := by
  cases s <;> simp [map, toList, Option.toList_map]

end Shape

end BraceLang
