import BraceLang.Proofs.Node.Spelling

/-! Which constructs a layer of expressions admits, and which layer each operand of a construct is left
    to. -/

namespace BraceLang

/-- Whether a construct may stand where an expression of the layer is read. Suffixes bind tighter than
    prefix operators, these tighter than binary operators, and assignments and conditionals the
    loosest. -/
def Layer.admits {α : Type} : Layer → Shape α → Bool
  | any, _ => true
  | suffixed, .prefixed .. | suffixed, .binary .. | prefixed, .binary .. => false
  | binary limit, .binary op .. => op.precedence < limit
  | _, .assign .. | _, .ternary .. => false
  | _, _ => true

/-- The operands of a construct, each with the layer it is left to. A left operand may be joined by an
    operator that binds as tightly as the one behind it, a right operand may not. -/
def Shape.operands {α : Type} : Shape α → List (Layer × α)
  | binary op lhs rhs => [(.binary (op.precedence + 1), lhs), (.binary op.precedence, rhs)]
  | prefixed _ x => [(.prefixed, x)]
  | postfixed _ x | member x .. | index x _ | call x _ | macroName x | macroCall x _ | cast x _ =>
    [(.suffixed, x)]
  | assign _ target _ => [(.binary Kind.loosest, target)]
  | ternary condition .. => [(.binary Kind.loosest, condition)]
  | _ => []

namespace Layer
variable {α : Type} {shape : Shape α} {limit : Nat}

theorem admits_prefixed (h : suffixed.admits shape = true) : prefixed.admits shape = true := by
  revert h
  cases shape <;> simp [admits]

theorem admits_binary (h : prefixed.admits shape = true) : (binary limit).admits shape = true := by
  revert h
  cases shape <;> simp [admits]

end Layer

end BraceLang
