import BraceLang.Node.Shape

/-! Syntax trees. A node has an identity, the range it was read from, the declaration it refers to once
    that is known, and a shape whose parts are nodes.

    Every pass over a tree is a `Node.fold`: what to do at a node, given what was computed for its
    parts. Main statements: how a fold unfolds (`Node.fold_eq`), and induction over the parts of a node
    (`Node.induct`). -/

namespace BraceLang

/-- The identity of a node within its program. -/
abbrev NodeId := Nat

/-- A node of a syntax tree. -/
structure Node where
  id : NodeId
  range : Range
  /-- The node this one refers to. -/
  resolved : Option NodeId
  shape : Shape Node

/-- What is done at a node, given its parts and what was computed for each. -/
abbrev Algebra (β : Type) := Node → Shape (Node × β) → β

mutual

/-- The outcome of an algebra for a tree. -/
def Node.fold {β : Type} (alg : Algebra β) : Node → β
  | ⟨id, range, resolved, shape⟩ => alg ⟨id, range, resolved, shape⟩ (foldParts alg shape)

/-- A shape of nodes with the outcome for each part beside it. -/
def foldParts {β : Type} (alg : Algebra β) : Shape Node → Shape (Node × β)
  | .bool v => .bool v
  | .int v => .int v
  | .float v => .float v
  | .char v => .char v
  | .str v => .str v
  | .null => .null
  | .template parts => .template (foldList alg parts)
  | .name text => .name text
  | .group x => .group (x, x.fold alg)
  | .prefixed op x => .prefixed op (x, x.fold alg)
  | .postfixed op x => .postfixed op (x, x.fold alg)
  | .binary op x y => .binary op (x, x.fold alg) (y, y.fold alg)
  | .ternary c t e => .ternary (c, c.fold alg) (foldOption alg t) (e, e.fold alg)
  | .assign op x y => .assign op (x, x.fold alg) (y, y.fold alg)
  | .call x args => .call (x, x.fold alg) (foldList alg args)
  | .macroName x => .macroName (x, x.fold alg)
  | .macroCall x args => .macroCall (x, x.fold alg) (foldList alg args)
  | .spread x => .spread (x, x.fold alg)
  | .yield x => .yield (foldOption alg x)
  | .new x args => .new (x, x.fold alg) (foldList alg args)
  | .index x args => .index (x, x.fold alg) (foldList alg args)
  | .dot n => .dot n
  | .member x y o => .member (x, x.fold alg) (y, y.fold alg) o
  | .tuple xs => .tuple (foldList alg xs)
  | .structLiteral x fields => .structLiteral (x, x.fold alg) (foldList alg fields)
  | .fieldInit n x => .fieldInit n (x, x.fold alg)
  | .array xs => .array (foldList alg xs)
  | .cast x y => .cast (x, x.fold alg) (y, y.fold alg)
  | .closure isAsync x y => .closure isAsync (x, x.fold alg) (y, y.fold alg)
  | .signature params x => .signature (foldList alg params) (foldOption alg x)
  | .param n x y => .param n (foldOption alg x) (foldOption alg y)
  | .var attrs mods isConst pattern x y =>
    .var (foldList alg attrs) mods isConst pattern (foldOption alg x) (foldOption alg y)
  | .func attrs mods isAsync n op generics sig body =>
    .func (foldList alg attrs) mods isAsync n op (foldList alg generics) (sig, sig.fold alg)
      (foldOption alg body)
  | .typeAlias attrs mods n generics x =>
    .typeAlias (foldList alg attrs) mods n (foldList alg generics) (x, x.fold alg)
  | .union attrs mods n generics xs =>
    .union (foldList alg attrs) mods n (foldList alg generics) (foldList alg xs)
  | .enum attrs mods n base xs =>
    .enum (foldList alg attrs) mods n (foldOption alg base) (foldList alg xs)
  | .enumOption attrs n x => .enumOption (foldList alg attrs) n (foldOption alg x)
  | .struct attrs mods n generics xs =>
    .struct (foldList alg attrs) mods n (foldList alg generics) (foldList alg xs)
  | .field attrs isPrivate n x y =>
    .field (foldList alg attrs) isPrivate n (x, x.fold alg) (foldOption alg y)
  | .generic n xs => .generic n (foldList alg xs)
  | .exprStmt x => .exprStmt (x, x.fold alg)
  | .block xs => .block (foldList alg xs)
  | .ifElse c t e => .ifElse (c, c.fold alg) (t, t.fold alg) (foldOption alg e)
  | .whileLoop c body => .whileLoop (c, c.fold alg) (body, body.fold alg)
  | .forLoop i c s body =>
    .forLoop (foldOption alg i) (foldOption alg c) (foldOption alg s) (body, body.fold alg)
  | .deferred x => .deferred (x, x.fold alg)
  | .returned x => .returned (foldOption alg x)
  | .continued => .continued
  | .broken => .broken
  | .prim kind => .prim kind
  | .named head path args => .named head path (foldList alg args)
  | .tupleType xs => .tupleType (foldList alg xs)
  | .arrayType x size => .arrayType (x, x.fold alg) (foldOption alg size)
  | .funcType params x => .funcType (foldList alg params) (foldOption alg x)
  | .pointer isConst x => .pointer isConst (x, x.fold alg)
  | .optional x => .optional (x, x.fold alg)

/-- Nodes with the outcome for each beside it. -/
def foldList {β : Type} (alg : Algebra β) : List Node → List (Node × β)
  | [] => []
  | x :: xs => (x, x.fold alg) :: foldList alg xs

/-- A node that may be absent, with the outcome for it. -/
def foldOption {β : Type} (alg : Algebra β) : Option Node → Option (Node × β)
  | none => none
  | some x => some (x, x.fold alg)

end

theorem foldList_eq {β : Type} (alg : Algebra β) (xs : List Node) :
    foldList alg xs = xs.map fun x => (x, x.fold alg) := by
  induction xs with
  | nil => simp [foldList]
  | cons x xs ih => simp [foldList, ih]

theorem foldOption_eq {β : Type} (alg : Algebra β) (x : Option Node) :
    foldOption alg x = x.map fun x => (x, x.fold alg) := by
  cases x <;> simp [foldOption]

theorem foldParts_eq {β : Type} (alg : Algebra β) (s : Shape Node) :
    foldParts alg s = s.map fun x => (x, x.fold alg) := by
  cases s <;> simp [foldParts, Shape.map, foldList_eq, foldOption_eq]

namespace Node

/-- A fold applies the algebra to the node and to the folds of its parts. -/
theorem fold_eq {β : Type} (alg : Algebra β) (n : Node) :
    n.fold alg = alg n (n.shape.map fun x => (x, x.fold alg)) := by
  cases n
  simp [fold, foldParts_eq]

/-- The direct parts of a node in source order. -/
def children (n : Node) : List Node := n.shape.toList

/-- What holds of a node whenever it holds of its parts holds of every node. -/
theorem induct {P : Node → Prop} (step : ∀ n, (∀ c ∈ n.children, P c) → P n) (n : Node) : P n := by
  apply @Node.rec P (fun s => ∀ c ∈ s.toList, P c) (fun xs => ∀ c ∈ xs, P c) (fun x => ∀ c ∈ x, P c)
  case mk =>
    intro id range resolved shape ih
    exact step _ ih
  all_goals intros
  all_goals simp_all [Shape.toList]
  all_goals grind

/-- The node and all nodes below it, parents before their parts and each with its depth, followed by
    `rest`; the node itself stands at `depth`. -/
def outlineThen (n : Node) : Nat → List (Nat × Node) → List (Nat × Node) :=
  n.fold fun n parts depth rest =>
    (depth, n) :: parts.toList.foldr (fun part rest => part.2 (depth + 1) rest) rest

/-- The node and all nodes below it with their depths, parents before their parts. -/
def outline (n : Node) : List (Nat × Node) := n.outlineThen 0 []

/-- The node and all nodes below it, parents before their parts. -/
def preorder (n : Node) : List Node := n.outline.map (·.2)

/-- The node with the given identity in this tree. -/
def find? (n : Node) (id : NodeId) : Option Node := n.preorder.find? (·.id == id)

/-- Replaces every node by what `f` gives for it, parents before their parts. A node keeps its parts,
    whatever shape `f` gives it. -/
def visit {m : Type → Type} [Monad m] (f : Node → m Node) (n : Node) : m Node :=
  n.fold fun n parts => do
    let n ← f n
    return { n with shape := ← parts.traverse (·.2) }

/-- What a node says apart from its parts. The number of parts of each sort is kept, so a tree can be
    read back from its nodes in order. -/
def label (n : Node) : NodeId × Range × Option NodeId × Shape Unit :=
  (n.id, n.range, n.resolved, n.shape.map fun _ => ())

end Node

/-- Two trees are equal if their nodes say the same in the same order. -/
instance : BEq Node where
  beq a b := a.preorder.map Node.label == b.preorder.map Node.label

/-- A parsed source. -/
structure Program where
  /-- The number of the source. -/
  source : Nat
  /-- Declarations and statements at the top. -/
  items : List Node
  /-- The number of identities given out, also to nodes that were thrown away. -/
  nodeCount : Nat
deriving BEq

namespace Program

/-- All nodes with their depths, parents before their parts; items stand at depth 0. -/
def outline (p : Program) : List (Nat × Node) := p.items.flatMap Node.outline

/-- The node with the given identity. -/
def find? (p : Program) (id : NodeId) : Option Node := p.items.findSome? (·.find? id)

/-- Replaces every node by what `f` gives for it, item by item and parents before their parts. -/
def visit {m : Type → Type} [Monad m] (f : Node → m Node) (p : Program) : m Program :=
  return { p with items := ← p.items.mapM (·.visit f) }

end Program

end BraceLang
