import BraceLang.Node

/-! Well-formed trees. Every part of a construct stands in a slot, which says what sort of node may stand
    there, and some constructs ask more of themselves: an operator that may stand where it does, two
    members of a union, a value for a constant. -/

namespace BraceLang

/-- What may stand at a place in a construct. -/
inductive Slot where
  /-- An expression, or a block that stands for one. -/
  | value
  | type
  | statement
  | block
  /-- What stands after `else`: a block or another `if`. -/
  | branch
  /-- A value, or a declaration that gives one. -/
  | condition
  /-- A value or a variable declaration. -/
  | initial
  /-- A name or an index. -/
  | selector
  | name
  | fieldInit
  | signature
  | param
  | generic
  | enumOption
  /-- A field or a declaration. -/
  | structMember
deriving DecidableEq

namespace Shape

def isValue {α : Type} : Shape α → Bool
  | bool _ | int _ | float _ | char _ | str _ | null | template _ | name _ | group _ | prefixed ..
  | postfixed .. | binary .. | ternary .. | assign .. | call .. | macroName _ | macroCall .. | spread _
  | yield _ | new .. | index .. | dot _ | member .. | tuple _ | structLiteral .. | array _ | cast ..
  | closure .. | block _ => true
  | _ => false

def isType {α : Type} : Shape α → Bool
  | prim _ | named .. | tupleType _ | arrayType .. | funcType .. | pointer .. | optional _ => true
  | _ => false

def isDeclaration {α : Type} : Shape α → Bool
  | var .. | func .. | typeAlias .. | union .. | enum .. | struct .. => true
  | _ => false

def isStatement {α : Type} : Shape α → Bool
  | exprStmt _ | block _ | ifElse .. | whileLoop .. | forLoop .. | deferred _ | returned _ | continued
  | broken => true
  | shape => shape.isDeclaration

def isFieldInit {α : Type} : Shape α → Bool
  | fieldInit .. => true
  | _ => false

end Shape

namespace Slot

/-- Whether a construct may stand in the slot. -/
def holds {α : Type} : Slot → Shape α → Bool
  | value, shape => shape.isValue
  | type, shape => shape.isType
  | statement, shape => shape.isStatement
  | block, .block _ => true
  | branch, .block _ | branch, .ifElse .. => true
  | condition, .var _ _ _ _ _ init => init.isSome
  | condition, shape => shape.isValue
  | initial, .var .. => true
  | initial, shape => shape.isValue
  | selector, .name _ | selector, .int _ => true
  | name, .name _ => true
  | fieldInit, shape => shape.isFieldInit
  | signature, .signature .. => true
  | param, .param .. => true
  | generic, .generic .. => true
  | enumOption, .enumOption .. => true
  | structMember, .field .. => true
  | structMember, shape => shape.isDeclaration
  | _, _ => false

end Slot

/-- Every element of a list with the same mark. -/
def each {τ α : Type} (mark : τ) (xs : List α) : List (τ × α) := xs.map (mark, ·)

section
variable {τ α β : Type} {mark : τ} {x : α} {xs ys : List α}

@[simp] theorem each_nil : each mark ([] : List α) = [] := rfl

@[simp] theorem each_cons : each mark (x :: xs) = (mark, x) :: each mark xs := rfl

@[simp] theorem each_append : each mark (xs ++ ys) = each mark xs ++ each mark ys := List.map_append

@[simp] theorem map_each (f : τ × α → β) : (each mark xs).map f = xs.map fun x => f (mark, x) :=
  List.map_map

theorem map_snd_each : (each mark xs).map Prod.snd = xs := by simp

theorem mem_each {p : τ × α} : p ∈ each mark xs ↔ p.1 = mark ∧ p.2 ∈ xs := by
  obtain ⟨found, y⟩ := p
  simp only [each, List.mem_map, Prod.mk.injEq]
  constructor
  · rintro ⟨x, hx, rfl, rfl⟩
    exact ⟨rfl, hx⟩
  · rintro ⟨rfl, hy⟩
    exact ⟨y, hy, rfl, rfl⟩

end

/-- The names under which an operator can be overloaded by a function of so many parameters. -/
def Kind.overloads : Kind → Nat → List String
  | kwInit, _ => ["operator_init"]
  | lBracket, _ => ["operator_index", "operator_index_set"]
  | lParen, _ => ["operator_call"]
  | k, 1 => k.unaryOperatorName?.toList
  | k, _ => k.operatorName?.toList

/-- The parameters of a signature. -/
def Node.params (n : Node) : List Node :=
  match n.shape with
  | .signature params _ => params
  | _ => []

namespace Shape

/-- The parts in source order, each with the slot it stands in. -/
def slots {α : Type} : Shape α → List (Slot × α)
  | bool _ | int _ | float _ | char _ | str _ | null | name _ | dot _ | continued | broken | prim _ => []
  | template list | tuple list | array list => each Slot.value list
  | tupleType list | generic _ list | named _ _ list => each Slot.type list
  | block list => each Slot.statement list
  | group x | prefixed _ x | postfixed _ x | spread x | fieldInit _ x | exprStmt x | macroName x =>
    [(.value, x)]
  | pointer _ x | optional x => [(.type, x)]
  | deferred x => [(.statement, x)]
  | yield x | returned x => each Slot.value x.toList
  | binary _ x y | assign _ x y => [(.value, x), (.value, y)]
  | member x y _ => [(.value, x), (.selector, y)]
  | cast x y => [(.value, x), (.type, y)]
  | closure _ x y => [(.signature, x), (.value, y)]
  | whileLoop x y => [(.condition, x), (.block, y)]
  | ternary c t f => (.value, c) :: each Slot.value t.toList ++ [(.value, f)]
  | call x list | index x list | macroCall x list => (.value, x) :: each Slot.value list
  | new x list => (.type, x) :: each Slot.value list
  | structLiteral x list => (.name, x) :: each Slot.fieldInit list
  | signature list x => each Slot.param list ++ each Slot.type x.toList
  | funcType list x => each Slot.type list ++ each Slot.type x.toList
  | param _ x y => each Slot.type x.toList ++ each Slot.value y.toList
  | var list _ _ _ x y =>
    each Slot.value list ++ each Slot.type x.toList ++ each Slot.value y.toList
  | func list _ _ _ _ generics sig body =>
    each Slot.value list ++ each Slot.generic generics ++ (.signature, sig) :: each Slot.value body.toList
  | typeAlias list _ _ generics x => each Slot.value list ++ each Slot.generic generics ++ [(.type, x)]
  | union list _ _ generics members =>
    each Slot.value list ++ each Slot.generic generics ++ each Slot.type members
  | struct list _ _ generics members =>
    each Slot.value list ++ each Slot.generic generics ++ each Slot.structMember members
  | enum list _ _ base options =>
    each Slot.value list ++ each Slot.type base.toList ++ each Slot.enumOption options
  | enumOption list _ x => each Slot.value list ++ each Slot.value x.toList
  | field list _ _ x y => each Slot.value list ++ (.type, x) :: each Slot.value y.toList
  | ifElse c t e => (.condition, c) :: (.block, t) :: each Slot.branch e.toList
  | forLoop i c s body =>
    each Slot.initial i.toList ++ each Slot.value c.toList ++ each Slot.value s.toList ++ [(.block, body)]
  | arrayType x size => (.type, x) :: each Slot.value size.toList

theorem map_snd_slots {α : Type} (shape : Shape α) : shape.slots.map Prod.snd = shape.toList := by
  cases shape <;> simp [slots, toList]

/-- What a construct asks of itself. -/
def Lawful : Shape Node → Prop
  | prefixed op _ => op.roles.prefixOp = true
  | postfixed op _ => op.roles.postfixOp = true
  | binary op _ _ => op.roles.binary = true
  | assign op _ _ => op.roles.assignment = true
  | prim kind => kind.roles.primitive = true
  | union _ _ _ _ members => 2 ≤ members.length
  | var _ _ isConst pattern _ init =>
    pattern.names ≠ [] ∧ (pattern.isTuple = false → pattern.names.length = 1) ∧
      (isConst = true → init.isSome = true)
  | func _ _ _ n operator generics sig _ =>
    ∀ op ∈ operator, generics = [] ∧ n.text ∈ op.overloads sig.params.length
  | _ => True

/-- Whatever a construct asks of itself is so, and every part may stand in its slot. -/
structure WellFormed (shape : Shape Node) : Prop where
  lawful : shape.Lawful
  parts : ∀ p ∈ shape.slots, p.1.holds p.2.shape = true

/-- A field with its value stands nowhere but among the fields of a struct literal. -/
theorem WellFormed.structLiteral_of_fieldInit {shape : Shape Node} (h : shape.WellFormed) {n : Node}
    (hn : n ∈ shape.toList) (hfield : n.shape.isFieldInit = true) :
    ∃ path fields, shape = .structLiteral path fields ∧ n ∈ fields := by
  rw [← map_snd_slots, List.mem_map] at hn
  obtain ⟨⟨slot, m⟩, hmem, rfl⟩ := hn
  have hslot : slot = .fieldInit := by
    have hholds : slot.holds m.shape = true := h.parts _ hmem
    generalize m.shape = part at hfield hholds
    cases part <;> cases hfield
    cases slot <;> first | rfl | cases hholds
  subst hslot
  cases shape <;> simp [slots, mem_each] at hmem
  exact ⟨_, _, rfl, hmem⟩

end Shape

end BraceLang
