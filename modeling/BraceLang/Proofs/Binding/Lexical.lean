import BraceLang.Proofs.Node.Unlinked

/-! Lexical scoping as a property of places in a tree. A place is a node with the part it plays for the
    node around it and the scopes that are open at it; each scope holds the declarations made in it so
    far, a name that is declared again being there again.

    `Place.parts` is the one table of the language's scopes: it says, for every construct, what is open at
    each of its parts. Nothing here is computed by the binder. -/

namespace BraceLang.Lexical

/-- A name and the node that declares it. -/
structure Declaration where
  name : String
  decl : NodeId
deriving DecidableEq

/-- The open scopes, innermost first, each with its declarations so far, earliest first. -/
abbrev Scopes := List (List Declaration)

/-- The first declaration of `name` in `scope` was made by `decl`. -/
def First (name : String) (decl : NodeId) (scope : List Declaration) : Prop :=
  ∃ earlier later, scope = earlier ++ ⟨name, decl⟩ :: later ∧ ∀ d ∈ earlier, d.name ≠ name

/-- Walking outward, the innermost scope that holds `name` has it first from `decl`. -/
inductive Denotes (name : String) (decl : NodeId) : Scopes → Prop where
  | here {scope : List Declaration} {outer : Scopes} (first : First name decl scope) :
    Denotes name decl (scope :: outer)
  | outward {scope : List Declaration} {outer : Scopes} (absent : ∀ d ∈ scope, d.name ≠ name)
    (rest : Denotes name decl outer) : Denotes name decl (scope :: outer)

/-- Declarations added to the innermost scope. -/
def Scopes.extend (scopes : Scopes) (ds : List Declaration) : Scopes :=
  match scopes with
  | [] => []
  | scope :: outer => (scope ++ ds) :: outer

/-! ### What constructs declare -/

/-- What a function or type declares ahead of its place, in the list it stands in. -/
def hoisted? (n : Node) : Option Declaration :=
  match n.shape with
  | .func _ _ _ name .. | .struct _ _ name .. | .enum _ _ name .. | .union _ _ name ..
  | .typeAlias _ _ name .. => some ⟨name.text, n.id⟩
  | _ => none

/-- What a list declares before any of its items. -/
def hoisted (ns : List Node) : List Declaration := ns.filterMap hoisted?

/-- Whether a condition is a variable declaration, so that the construct has a scope of its own. -/
def bindsVariable (condition : Node) : Bool :=
  match condition.shape with
  | .var .. => true
  | _ => false

/-- What a node leaves in the scope it stands in, given what its parts leave: the names it declares
    itself come after what its parts left there, and parts inside a scope of its own leave nothing. -/
def leaves (n : Node) (parts : Shape (Node × List Declaration)) : List Declaration :=
  match parts with
  | .var _ _ _ pattern _ _ =>
    parts.toList.flatMap (·.2) ++ pattern.names.map fun name => ⟨name.text, n.id⟩
  | .param name _ _ | .generic name _ | .enumOption _ name _ | .field _ _ name _ _ =>
    parts.toList.flatMap (·.2) ++ [⟨name.text, n.id⟩]
  | .func attrs .. | .struct attrs .. | .typeAlias attrs .. | .union attrs .. => attrs.flatMap (·.2)
  | .enum attrs _ _ base _ => (attrs ++ base.toList).flatMap (·.2)
  | .closure .. | .block _ | .forLoop .. => []
  | .ifElse condition .. | .whileLoop condition _ =>
    if bindsVariable condition.1 then [] else parts.toList.flatMap (·.2)
  | .deferred stmt => (hoisted? stmt.1).toList ++ stmt.2
  | parts => parts.toList.flatMap (·.2)

/-- The declarations that a tree leaves in the scope it stands in. -/
def declares (n : Node) : List Declaration := n.fold leaves

/-- The scopes after some nodes. -/
def Scopes.after (scopes : Scopes) (ns : List Node) : Scopes := scopes.extend (ns.flatMap declares)

/-! ### Places -/

/-- The part a node plays for the node around it. A bare name is no use of a declaration if it stands
    as anything but `plain`. -/
inductive Standing where
  | plain
  /-- On the right of a point. -/
  | selector
  /-- Before the mark of a macro. -/
  | macroTarget
  | attribute
  /-- Before the arguments of an attribute. -/
  | attributeCallee
deriving DecidableEq

/-- A node with the part it plays and the scopes that are open at it. -/
structure Place where
  standing : Standing
  scopes : Scopes
  node : Node

/-- Nodes one after another, each of which sees what those before it have declared. -/
def inTurn (standing : Standing) (scopes : Scopes) : List Node → List Place
  | [] => []
  | n :: ns => ⟨standing, scopes, n⟩ :: inTurn standing (scopes.extend (declares n)) ns

namespace Place

/-- The places of the parts of a node, in source order. -/
def parts (p : Place) : List Place :=
  match p.node.shape with
  | .member target member _ =>
    [⟨.plain, p.scopes, target⟩, ⟨.selector, p.scopes.after [target], member⟩]
  | .macroName target => [⟨.macroTarget, p.scopes, target⟩]
  | .macroCall target args =>
    ⟨.macroTarget, p.scopes, target⟩ :: inTurn .plain (p.scopes.after [target]) args
  | .call callee args =>
    let standing := if p.standing = .attribute then .attributeCallee else .plain
    ⟨standing, p.scopes, callee⟩ :: inTurn .plain (p.scopes.after [callee]) args
  | .var attrs _ _ _ type init =>
    inTurn .attribute p.scopes attrs ++
      inTurn .plain (p.scopes.after attrs) (type.toList ++ init.toList)
  | .func attrs _ _ _ _ generics signature body =>
    inTurn .attribute p.scopes attrs ++
      inTurn .plain ([] :: p.scopes.after attrs) (generics ++ signature :: body.toList)
  | .closure _ signature body => inTurn .plain ([] :: p.scopes) [signature, body]
  | .struct attrs _ _ generics members =>
    let inner := Scopes.after ([] :: p.scopes.after attrs) generics
    inTurn .attribute p.scopes attrs ++ (inTurn .plain ([] :: p.scopes.after attrs) generics ++
      inTurn .plain (inner.extend (hoisted members)) members)
  | .field attrs _ _ type default =>
    inTurn .attribute p.scopes attrs ++ inTurn .plain (p.scopes.after attrs) (type :: default.toList)
  | .enum attrs _ _ base options =>
    inTurn .attribute p.scopes attrs ++ (inTurn .plain (p.scopes.after attrs) base.toList ++
      inTurn .plain ([] :: (p.scopes.after attrs).after base.toList) options)
  | .enumOption attrs _ value =>
    inTurn .attribute p.scopes attrs ++ inTurn .plain (p.scopes.after attrs) value.toList
  | .typeAlias attrs _ _ generics type =>
    inTurn .attribute p.scopes attrs ++
      inTurn .plain ([] :: p.scopes.after attrs) (generics ++ [type])
  | .union attrs _ _ generics members =>
    inTurn .attribute p.scopes attrs ++
      inTurn .plain ([] :: p.scopes.after attrs) (generics ++ members)
  | .block statements => inTurn .plain (hoisted statements :: p.scopes) statements
  | .ifElse condition thenBranch elseBranch =>
    let scopes := if bindsVariable condition then [] :: p.scopes else p.scopes
    inTurn .plain scopes (condition :: thenBranch :: elseBranch.toList)
  | .whileLoop condition body =>
    let scopes := if bindsVariable condition then [] :: p.scopes else p.scopes
    inTurn .plain scopes [condition, body]
  | .forLoop init condition step body =>
    inTurn .plain ([] :: p.scopes) (init.toList ++ condition.toList ++ step.toList ++ [body])
  | .deferred stmt => [⟨.plain, p.scopes.extend (hoisted [stmt]), stmt⟩]
  | shape => inTurn .plain p.scopes shape.toList

/-- The name that a place uses, if it is a use of a name: a bare name that stands for a value, or the
    first name of a type's path. -/
def use? (p : Place) : Option String :=
  match p.node.shape with
  | .name text => if p.standing = .plain then some text else none
  | .named head _ _ => some head.text
  | _ => none

/-- `q` is `p` or lies below it. -/
inductive Reaches : Place → Place → Prop where
  | refl (p : Place) : Reaches p p
  | part {p q r : Place} (part : q ∈ p.parts) (rest : Reaches q r) : Reaches p r

/-- The place is linked to the declaration that its name denotes, and to none if there is no such
    declaration. -/
def Linked (p : Place) : Prop :=
  ∀ name, p.use? = some name → ∀ decl, p.node.resolved = some decl ↔ Denotes name decl p.scopes

end Place

/-- The places of the items of a program, all in one scope. -/
def items (p : Program) : List Place := inTurn .plain [hoisted p.items] p.items

/-- A place of a program. -/
def IsPlaceOf (p : Program) (q : Place) : Prop := ∃ item ∈ items p, item.Reaches q

end BraceLang.Lexical
