import BraceLang.Proofs.Grammar.Reads.Statements
import Mathlib.Logic.Function.Iterate

/-! The rules of the language at any nesting: they move and read as the rules do that they are made of,
    and they are what the grammar says of itself when every rule is guarded by the limit on nesting. -/

namespace BraceLang.Grammar

variable {α : Type} {depth limit : Nat}

/-- The rules with any number of levels left move on from every place. -/
theorem Rules.within_agree (n : Nat) : ∀ depth, (within n).Agree depth (within n) := by
  induction n with
  | zero =>
    exact fun _ => {
      expression := .tooDeep
      type := .tooDeep
      statement := .tooDeep
      block := .tooDeep
      structMember := .tooDeep
      operand := fun _ => .tooDeep
      unary := .tooDeep
      elseIf := .tooDeep }
  | succ n ih =>
    intro depth
    have inner := (ih (depth + 1)).related
    exact (Congruence.Rel.around (D := agreement depth) .nested inner).agree

theorem ReadsNode.tooDeep : ReadsNode tooDeep := fun _ _ _ e => (tooDeep_eq_ok.mp e).elim

theorem ReadsNode.nested {p : Parser Node} (h : ReadsNode p) : ReadsNode (nested p) := by
  intro s n t e
  obtain ⟨t', hp, rfl⟩ := nested_eq_ok.mp e
  exact (h hp).nested

/-- The rules with any number of levels left read what they give. -/
theorem Rules.within_read (n : Nat) : (within n).Read := by
  induction n with
  | zero =>
    exact {
      expression := .tooDeep
      type := .tooDeep
      statement := .tooDeep
      block := .tooDeep
      structMember := .tooDeep
      operand := fun _ => .tooDeep
      unary := .tooDeep
      elseIf := .tooDeep
      moves := fun depth => (within_agree 0 depth).statement }
  | succ n ih =>
    exact {
      expression := (expressionRule_reads ih).nested
      type := (typeRule_reads ih).nested
      statement := (statementRule_reads ih).nested
      block := (blockRule_reads ih).nested
      structMember := (structMemberRule_reads ih).nested
      operand := fun limit => (binary_reads ih limit).nested
      unary := (prefixed_reads ih).nested
      elseIf := (ifRule_reads ih).nested
      moves := fun depth => (within_agree (n + 1) depth).statement }

/-! ### The guard -/

/-- Runs `body` one level deeper, unless `limit` levels are open. -/
def nestedBelow (limit : Nat) (body : Parser α) : Parser α := fun s =>
  if s.depth < limit then nested body s else tooDeep s

/-- The rules of the grammar, each guarded by the limit, in terms of those they refer to. -/
def Rules.guarded (limit : Nat) (inner : Rules) : Rules :=
  { expression := nestedBelow limit (expressionRule inner)
    type := nestedBelow limit (typeRule inner)
    statement := nestedBelow limit (statementRule inner)
    block := nestedBelow limit (blockRule inner)
    structMember := nestedBelow limit (structMemberRule inner)
    operand := fun strength => nestedBelow limit (binary inner strength)
    unary := nestedBelow limit (prefixed inner)
    elseIf := nestedBelow limit (ifRule inner) }

theorem Agrees.nestedBelow {p q : Parser α} (h : depth < limit) (hpq : Agrees (depth + 1) p q) :
    Agrees depth (Grammar.nested p) (Grammar.nestedBelow limit q) := by
  intro s hs
  rw [Grammar.nestedBelow, if_pos (hs ▸ h)]
  exact hpq.nested s hs

theorem Agrees.tooDeep_nestedBelow {q : Parser α} (h : limit ≤ depth) :
    Agrees depth Grammar.tooDeep (Grammar.nestedBelow limit q) := by
  intro s hs
  rw [Grammar.nestedBelow, if_neg (by omega)]
  exact Agrees.tooDeep s hs

/-- Whatever stands for the rules at the bottom, the guarded grammar unfolded often enough does what
    the rules with the levels left do: it never goes deeper than the limit. -/
theorem Rules.within_agree_guarded (limit : Nat) (outside : Rules) (n depth : Nat)
    (h : limit - depth < n) :
    (within (limit - depth)).Agree depth ((guarded limit)^[n] outside) := by
  induction n generalizing depth with
  | zero => omega
  | succ n ih =>
    rw [Function.iterate_succ_apply']
    by_cases hdepth : depth < limit
    · have inner := (ih (depth + 1) (by omega)).related
      have hlevels : limit - depth = limit - (depth + 1) + 1 := by omega
      rw [hlevels]
      exact (Congruence.Rel.around (D := agreement depth) (.nestedBelow hdepth) inner).agree
    · have hbottom : limit ≤ depth := Nat.le_of_not_lt hdepth
      rw [Nat.sub_eq_zero_of_le hbottom]
      exact {
        expression := .tooDeep_nestedBelow hbottom
        type := .tooDeep_nestedBelow hbottom
        statement := .tooDeep_nestedBelow hbottom
        block := .tooDeep_nestedBelow hbottom
        structMember := .tooDeep_nestedBelow hbottom
        operand := fun _ => .tooDeep_nestedBelow hbottom
        unary := .tooDeep_nestedBelow hbottom
        elseIf := .tooDeep_nestedBelow hbottom }

end BraceLang.Grammar
