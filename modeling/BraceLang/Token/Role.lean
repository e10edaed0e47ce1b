import BraceLang.Token.Kind

/-! The grammatical roles of token kinds: which may stand as which sort of operator and how tightly each
    binds, which are keywords, and at which the parser takes up again after an error. -/

namespace BraceLang

/-- A set of grammatical roles. -/
structure Roles where
  /-- May stand before an operand. -/
  prefixOp : Bool
  /-- May stand after an operand. -/
  postfixOp : Bool
  /-- May stand between two operands. -/
  binary : Bool
  /-- Stores a value. -/
  assignment : Bool
  /-- Starts the branches of a conditional expression. -/
  ternary : Bool
  /-- Is a reserved word. -/
  keyword : Bool
  /-- Names a primitive type. -/
  primitive : Bool
  /-- Starts a statement, so recovery may stop at it. -/
  boundary : Bool
deriving DecidableEq

namespace Roles

/-- No role at all. -/
def none : Roles := ⟨false, false, false, false, false, false, false, false⟩

/-- The roles in either set. -/
def union (a b : Roles) : Roles :=
  { prefixOp := a.prefixOp || b.prefixOp
    postfixOp := a.postfixOp || b.postfixOp
    binary := a.binary || b.binary
    assignment := a.assignment || b.assignment
    ternary := a.ternary || b.ternary
    keyword := a.keyword || b.keyword
    primitive := a.primitive || b.primitive
    boundary := a.boundary || b.boundary }

/-- Whether every role of `b` is in `a`. -/
def contains (a b : Roles) : Bool := a.union b == a

end Roles

namespace Kind

/-- The roles of a kind. -/
def roles : Kind → Roles
  | kwFunc | kwVar | kwConst | kwStruct | kwEnum | kwType | kwIf | kwWhile | kwFor | kwDefer
  | kwReturn | kwBreak | kwContinue | kwExport | kwOpaque | kwAsync =>
    { Roles.none with keyword := true, boundary := true }
  | kwElse | kwNew | kwYield | kwInit | kwAs | kwPrivate => { Roles.none with keyword := true }
  | kwAwait | kwDelete => { Roles.none with keyword := true, prefixOp := true }
  | tyVoid | tyBool | tyChar | tyString | tyI8 | tyI16 | tyI32 | tyI64 | tyU8 | tyU16 | tyU32 | tyU64
  | tyF32 | tyF64 | tyIsize | tyUsize | tyAny => { Roles.none with keyword := true, primitive := true }
  | plus | minus | star | amp => { Roles.none with binary := true, prefixOp := true }
  | starStar | slash | percent | ltLt | gtGt | lt | gt | ltEq | gtEq | eqEq | bangEq | caret | pipe
  | ampAmp | dotDot | pipePipe | questionQuestion => { Roles.none with binary := true }
  | eq | plusEq | minusEq | starEq | slashEq | percentEq | starStarEq | ltLtEq | gtGtEq | ampEq
  | caretEq | pipeEq | ampAmpEq | pipePipeEq | questionQuestionEq =>
    { Roles.none with assignment := true }
  | bang | tilde => { Roles.none with prefixOp := true }
  | plusPlus | minusMinus => { Roles.none with prefixOp := true, postfixOp := true }
  | question => { Roles.none with ternary := true }
  | _ => Roles.none

/-- The binding strength of what is no operator, looser than any operator. -/
def loosest : Nat := 255

/-- How loosely an operator binds its operands: the smaller the number, the tighter. -/
def precedence (kind : Kind) : Nat :=
  match kind with
  | starStar => 1
  | star | slash | percent => 2
  | plus | minus => 3
  | ltLt | gtGt => 4
  | lt | gt | ltEq | gtEq => 5
  | eqEq | bangEq => 6
  | amp => 7
  | caret => 8
  | pipe => 9
  | ampAmp => 10
  | dotDot => 11
  | pipePipe | questionQuestion => 12
  | kind => if kind.roles.assignment then 14 else loosest

/-- The operator that a compound assignment applies before it stores. -/
def compoundOperator? : Kind → Option Kind
  | plusEq => some plus
  | minusEq => some minus
  | starEq => some star
  | slashEq => some slash
  | percentEq => some percent
  | starStarEq => some starStar
  | ltLtEq => some ltLt
  | gtGtEq => some gtGt
  | ampEq => some amp
  | caretEq => some caret
  | pipeEq => some pipe
  | ampAmpEq => some ampAmp
  | pipePipeEq => some pipePipe
  | questionQuestionEq => some questionQuestion
  | _ => none

/-- The name of a function that overloads an operator. -/
def operatorName? : Kind → Option String
  | starStar => some "operator_pow"
  | star => some "operator_mul"
  | slash => some "operator_div"
  | percent => some "operator_mod"
  | plus => some "operator_add"
  | minus => some "operator_sub"
  | ltLt => some "operator_shl"
  | gtGt => some "operator_shr"
  | lt => some "operator_lt"
  | gt => some "operator_gt"
  | ltEq => some "operator_le"
  | gtEq => some "operator_ge"
  | eqEq => some "operator_eq"
  | bangEq => some "operator_ne"
  | amp => some "operator_bitand"
  | caret => some "operator_bitxor"
  | pipe => some "operator_bitor"
  | dotDot => some "operator_range"
  | bang => some "operator_not"
  | tilde => some "operator_bitnot"
  | plusPlus => some "operator_inc"
  | minusMinus => some "operator_dec"
  | plusEq => some "operator_add_assign"
  | minusEq => some "operator_sub_assign"
  | starEq => some "operator_mul_assign"
  | slashEq => some "operator_div_assign"
  | percentEq => some "operator_mod_assign"
  | starStarEq => some "operator_pow_assign"
  | ltLtEq => some "operator_shl_assign"
  | gtGtEq => some "operator_shr_assign"
  | ampEq => some "operator_bitand_assign"
  | caretEq => some "operator_bitxor_assign"
  | pipeEq => some "operator_bitor_assign"
  | _ => none

/-- The name of a function of one parameter that overloads an operator. -/
def unaryOperatorName? : Kind → Option String
  | minus => some "operator_neg"
  | plus => some "operator_pos"
  | star => some "operator_deref"
  | amp => some "operator_addr"
  | kind => kind.operatorName?

end Kind

end BraceLang
