import BraceLang.Proofs.Grammar.Conduct.Statements

/-! How operators group in a parsed program, whatever is wrong with its text: each operand is of the layer
    that its operator leaves to it. -/

namespace BraceLang

open Grammar

/-- In every node of a program each operand is of the layer that the construct leaves to it: joined by a
    binary operator, the left operand binds no looser than the operator and the right operand tighter, and
    neither is an assignment or a conditional; behind a prefix operator stands nothing that is joined by
    an operator; what has a suffix has no operator but suffixes; and neither the target of an assignment nor
    the condition of a conditional is an assignment or a conditional. -/
theorem parse_operands_layered (source : Source) : ∀ n ∈ (parse source).1.items.flatMap Node.preorder,
    ∀ operand ∈ n.shape.operands, operand.1.admits operand.2.shape = true := by
  intro n hn
  obtain ⟨item, hitem, hn⟩ := List.mem_flatMap.mp hn
  obtain ⟨sound, -⟩ := parse_conduct (State.within_everywhere _)
  have regular : n.Regular Area.everywhere := (sound item hitem).of_mem_preorder hn
  exact regular.operands

/-- A difference that is the left operand of another. -/
theorem parse_operands_layered_difference :
    ∃ n ∈ (parse (Source.ofText 0 "main" "a - b - c;")).1.items.flatMap Node.preorder,
      ∃ operand ∈ n.shape.operands, operand.2.shape.tag = "binary" ∧
        operand.1.admits operand.2.shape = true := by
  obtain ⟨n, hn, operand, hoperand, htag⟩ :
      ∃ n ∈ (parse (Source.ofText 0 "main" "a - b - c;")).1.items.flatMap Node.preorder,
        ∃ operand ∈ n.shape.operands, operand.2.shape.tag = "binary" := by
    decide +kernel
  exact ⟨n, hn, operand, hoperand, htag, parse_operands_layered _ n hn operand hoperand⟩

/-- Operators that bind equally tightly group to the left, and an assignment takes in a conditional. -/
example :
    ((parse (Source.ofText 0 "main" "a - b - c;")).1.items.flatMap Node.preorder).map (·.shape.tag) =
      ["expr-stmt", "binary", "binary", "ident", "ident", "ident"] ∧
    ((parse (Source.ofText 0 "main" "a = b ? c : d;")).1.items.flatMap Node.preorder).map (·.shape.tag) =
      ["expr-stmt", "assign", "ident", "ternary", "ident", "ident", "ident"] := by
  decide +kernel

end BraceLang
