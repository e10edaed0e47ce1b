import BraceLang.Proofs.Grammar.Formation
import BraceLang.Proofs.Grammar.Headers.Expressions

/-! Declarations, statements and recovery, rule by rule, and the rules at every level of nesting
    (`Rules.within_heed`). A condition that declares no variables is read where no struct literal may start.

    Main statement: in every parsed program, whatever is wrong with its text, the condition of a header holds a
    struct literal only where it is closed in (`parse_headers_bare`). -/

namespace BraceLang

namespace Grammar

variable {r : Rules} {allowed : Bool}

theorem statements_heeds {p : Parser Node} (h : Offers allowed true p) (inBlock : Bool) :
    Heeds allowed (AllFit true) (statements p inBlock) := by
  refine .bind (.collecting true .nil fun items hitems => ?_) fun _ hitems => .pure hitems
  refine .check fun _ => .check fun _ => .ite (.pure hitems) (.get fun s _ => ?_)
  refine .attempt h (fun item hitem => .pure (hitems.push hitem)) fun e => ?_
  exact .seq .report fun _ => .seq (.synchronize s.remaining inBlock) fun _ => .pure hitems

section Rules
variable (h : r.Heed)
include h

/-! ### Declarations -/

theorem attributes_heeds : Heeds allowed (AllFit true) (attributes r) := by
  refine .repeating AllFit.nil fun attrs hattrs => .eat fun _ => .ite (.expect fun _ => ?_) (.pure hattrs)
  exact .bind (.list h.expression) fun _ hmore => .pure (hattrs.append hmore)

theorem genericParameter_offers : Offers allowed true (genericParameter r) := by
  have hconstraints : Heeds allowed (AllFit false) (constraints r) := by
    refine .eat fun _ => .ite (.bind (.collecting false .nil fun types htypes => ?_) fun _ htypes => .pure htypes)
      (.pure .nil)
    exact .bind h.type fun _ hn => .eat fun _ => .ite (.pure (htypes.push hn)) (.pure (htypes.push hn))
  exact .here fun _ => .name fun _ => .bind hconstraints fun _ htypes => .close (.freely rfl htypes.freely)

theorem generics_heeds : Heeds allowed (AllFit true) (generics r) :=
  .eat fun _ => .ite (.list (genericParameter_offers h)) (.pure .nil)

theorem functionBody_heeds : Heeds allowed (fun body => AllFit true body.toList) (functionBody r) := by
  refine .check fun _ => .ite (.bind h.block fun _ hn => .pure (.one hn.freely)) (.eat fun _ => .ite ?_ ?_)
  · exact .bind h.expression fun _ hn => .pure (.one hn.freely)
  refine .eat fun _ => .ite (.pure .nil) (.kind fun k => ?_)
  split
  · exact .pure .nil
  · exact .pure .nil
  · exact .ite (.pure .nil) .unexpected

section Declarations
variable {attrs : List Node} {start : Range} (hattrs : AllFit true attrs)
include hattrs

/-- Also where no struct literal may start, a variable is only asked to have its headers in order. -/
theorem variableDecl_heeds (mods : Modifiers) (required : Bool) :
    Heeds allowed (fun n => n.Fit true ∧ n.shape.isVariable = true) (variableDecl r attrs mods start required) := by
  refine .seq .variableKeyword fun isConst => .seq (.pattern start) fun names => ?_
  refine .bind (.optionalAfter h.type) fun type htype => .bind (.optionalAfter h.expression) fun init hinit => ?_
  refine .ite .unexpected (.seq .finish fun range s hs => ⟨hs, Shape.Fit.node (.freely rfl ?_), rfl⟩)
  exact (hattrs.append htype.freely).append hinit.freely

theorem variableDecl_offers (mods : Modifiers) (required : Bool) :
    Offers allowed true (variableDecl r attrs mods start required) :=
  .mono (variableDecl_heeds h hattrs mods required) fun _ hn => hn.1

theorem functionDecl_offers (mods : Modifiers) : Offers allowed true (functionDecl r attrs mods start) := by
  have hgenerics (operator : Option Kind) : Heeds allowed (AllFit true) (functionGenerics r operator) :=
    .ite (generics_heeds h) (.pure .nil)
  refine .seq .functionAsync fun _ => .expect fun _ => .seq .functionName fun (_, operator) => ?_
  refine .bind (hgenerics operator) fun _ hparams => .bind (callSignature_offers h) fun _ hsignature => ?_
  refine .bind (functionBody_heeds h) fun _ hbody => .close (.freely rfl ?_)
  exact (hattrs.append hparams).append (.cons hsignature.freely hbody)

theorem enumDecl_offers (mods : Modifiers) : Offers allowed true (enumDecl r attrs mods start) := by
  have hoption : Offers true true (enumOption r) :=
    .here fun _ => .bind (attributes_heeds h) fun _ hattrs => .name fun _ =>
      .bind (.optionalAfter h.expression) fun _ hvalue => .close (.freely rfl (hattrs.append hvalue))
  refine .expect fun _ => .name fun _ => .bind (.optionalAfter h.type) fun _ hbase => .expect fun _ => ?_
  refine .bind (.list hoption) fun options hoptions => .seq .finish fun range => ?_
  refine .seq .requireOptions fun _ => .node (.freely rfl ?_)
  exact (hattrs.append hbase.freely).append hoptions

theorem typeDecl_offers (mods : Modifiers) : Offers allowed true (typeDecl r attrs mods start) := by
  have hmembers {first : Node} (hfirst : first.Fit false) : Heeds allowed (AllFit false) (unionMembers r first) := by
    refine .bind (.collecting false (.one hfirst) fun members hmembers => ?_) fun _ hmembers => .pure hmembers
    exact .eat fun _ => .ite (.bind h.type fun _ hn => .pure (hmembers.push hn)) (.pure hmembers)
  refine .expect fun _ => .name fun _ => .bind (generics_heeds h) fun _ hparams => .expect fun _ => ?_
  have hheads := hattrs.append hparams
  refine .bind h.type fun first hfirst => .check fun _ => .ite ?_ ?_
  · exact .bind (hmembers hfirst) fun _ hmembers => .close (.freely rfl (hheads.append hmembers.freely))
  · exact .close (.freely rfl (hheads.append (.one hfirst.freely)))

theorem structDecl_offers (mods : Modifiers) : Offers allowed true (structDecl r attrs mods start) := by
  have hmembers : Heeds allowed (fun members => AllFit true members.toList)
      (withStructLiterals true (repeating #[] (structMemberStep r))) := by
    refine .withStructLiterals (.collecting true .nil fun members hmembers => .kind fun k => ?_)
    split
    · exact .pure hmembers
    · exact .pure hmembers
    · exact .bind h.structMember fun _ hn => .seq .skipSeparators fun _ => .pure (hmembers.push hn)
  refine .expect fun _ => .name fun _ => .bind (generics_heeds h) fun _ hparams => .expect fun _ => ?_
  exact .bind hmembers fun _ hmembers => .expect fun _ =>
    .close (.freely rfl ((hattrs.append hparams).append hmembers))

theorem declarationAfter_offers : Offers allowed true (declarationAfter r attrs start) := by
  refine .seq (.repeating .modifierStep) fun mods => .kind fun k => ?_
  split
  · exact structDecl_offers h hattrs mods
  · exact enumDecl_offers h hattrs mods
  · exact typeDecl_offers h hattrs mods
  · exact variableDecl_offers h hattrs mods false
  · exact variableDecl_offers h hattrs mods false
  · exact functionDecl_offers h hattrs mods
  · exact functionDecl_offers h hattrs mods
  · exact .unexpected

end Declarations

theorem declaration_offers : Offers allowed true (declaration r) :=
  .here fun _ => .bind (attributes_heeds h) fun _ hattrs => declarationAfter_offers h hattrs

theorem structMemberRule_offers : Offers allowed true (structMemberRule r) := by
  refine .here fun _ => .bind (attributes_heeds h) fun attrs hattrs => .check fun _ => .check fun _ => ?_
  refine .peek fun _ => .ite (.eat fun _ => .name fun _ => .expect fun _ => ?_) (declarationAfter_offers h hattrs)
  refine .bind h.type fun _ htype => .bind (.optionalAfter h.expression) fun _ hdefault => ?_
  exact .close (.freely rfl (hattrs.append (.cons htype.freely hdefault.freely)))

/-! ### Statements -/

theorem blockRule_offers : Offers allowed false (blockRule r) :=
  .here fun _ => .expect fun _ => .bind (.withStructLiterals (statements_heeds h.statement true)) fun _ hbody =>
    .expect fun _ => .close (.enclosing rfl rfl .nil hbody)

/-- A condition that declares no variables is bare, whatever may start around it. -/
theorem condition_heeds :
    Heeds allowed (fun n => n.Fit true ∧ (n.shape.isVariable = false → n.Bare)) (condition r) := by
  have declared {inside : Bool} (start : Range) :
      Heeds inside (fun n => n.Fit true ∧ (n.shape.isVariable = false → n.Bare))
        (variableDecl r [] Modifiers.none start true) := by
    refine .mono (variableDecl_heeds h .nil Modifiers.none true) fun n hn => ⟨hn.1, fun hnot => ?_⟩
    rw [hn.2] at hnot
    cases hnot
  refine .kind fun _ => .ite (.here fun start => .withStructLiterals (declared start)) ?_
  refine .check fun _ => .peek fun _ => .ite (.advance fun _ => .here fun start => ?_) ?_
  · exact .bind (.withStructLiterals (declared start)) fun _ hn => .expect fun _ => .pure hn
  · exact .withStructLiterals (.mono h.expression fun _ hn => ⟨hn.freely, fun _ => hn.bare rfl⟩)

theorem elseBranch_heeds : Heeds allowed (fun branch => AllFit true branch.toList) (elseBranch r) :=
  .eat fun _ => .ite
    (.check fun _ => .ite (.bind h.elseIf fun _ hn => .pure (.one hn))
      (.bind h.block fun _ hn => .pure (.one hn.freely)))
    (.pure .nil)

theorem ifRule_offers : Offers allowed true (ifRule r) := by
  refine .here fun _ => .expect fun _ => .bind (condition_heeds h) fun cond hcond => ?_
  refine .bind h.block fun _ hthen => .bind (elseBranch_heeds h) fun _ helse => .close (.headed ?_ ?_)
  · rintro header ⟨⟩
    exact hcond.2
  · exact .cons hcond.1 (.cons hthen.freely helse)

theorem whileRule_offers : Offers allowed true (whileRule r) := by
  refine .here fun _ => .advance fun _ => .bind (condition_heeds h) fun cond hcond => ?_
  refine .bind h.block fun _ hbody => .close (.headed ?_ (.cons hcond.1 (.one hbody.freely)))
  rintro header ⟨⟩
  exact hcond.2

theorem headerPart_heeds (stop : Kind) :
    Heeds allowed (fun part => AllFit true part.toList) (headerPart r stop) :=
  .bind (optionalValue_heeds h _) fun _ hpart => .expect fun _ => .pure hpart.freely

theorem headerInit_heeds : Heeds allowed (fun part => AllFit true part.toList) (headerInit r) := by
  refine .kind fun _ => .ite (.here fun start => ?_) (headerPart_heeds h .semi)
  exact .bind (variableDecl_offers h .nil _ false) fun _ hn => .expect fun _ => .pure (.one hn)

theorem forRule_offers : Offers allowed true (forRule r) := by
  refine .here fun _ => .expect fun _ => .expect fun _ => .bind (headerInit_heeds h) fun _ hinit => ?_
  refine .bind (headerPart_heeds h _) fun _ hcond => .bind (headerPart_heeds h _) fun _ hstep => ?_
  refine .bind h.block fun _ hbody => .close (.freely rfl ?_)
  exact ((hinit.append hcond).append hstep).append (.one hbody.freely)

theorem expressionStatement_offers {start : Range} : Offers allowed true (expressionStatement r start) :=
  .bind h.expression fun _ hn => .close (.freely rfl (.one hn.freely))

theorem asyncStatement_offers : Offers allowed true (asyncStatement r) :=
  .here fun _ => .advance fun _ => .bind (.moving fun _ => .setPendingAsync) fun _ _ => .seq .atFunctionDecl
    fun _ => .ite (declarationAfter_offers h .nil) (expressionStatement_offers h)

theorem statementBody_offers : Offers allowed true (statementBody r) := by
  refine .here fun start => .kind fun k => ?_
  split
  case h_9 =>
    exact .seq .atFunctionDecl fun _ => .ite (declaration_offers h) (expressionStatement_offers h)
  case h_10 => exact .peek fun _ => .ite (asyncStatement_offers h) (expressionStatement_offers h)
  case h_11 => exact .mono h.block fun _ hn => hn.freely
  case h_12 => exact ifRule_offers h
  case h_13 => exact whileRule_offers h
  case h_14 => exact forRule_offers h
  case h_15 => exact .advance fun _ => .bind h.statement fun _ hn => .close (.freely rfl (.one hn))
  case h_16 =>
    exact .advance fun _ => .bind (optionalValue_heeds h _) fun _ hvalue => .close (.freely rfl hvalue.freely)
  case h_17 | h_18 => exact .advance fun _ => .close (.freely rfl .nil)
  case h_19 => exact expressionStatement_offers h
  all_goals exact declaration_offers h

theorem statementRule_offers : Offers allowed true (statementRule r) :=
  .bind (statementBody_offers h) fun _ hn => .eat fun _ => .pure hn

end Rules

/-- The rules at every level of nesting heed whether struct literals may start. -/
theorem Rules.within_heed (n : Nat) : (Rules.within n).Heed := by
  induction n with
  | zero =>
    exact {
      expression := .tooDeep
      type := .tooDeep
      statement := .tooDeep
      block := .tooDeep
      structMember := .tooDeep
      operand := fun _ => .tooDeep
      unary := .tooDeep
      elseIf := .tooDeep }
  | succ n ih =>
    exact {
      expression := .nested (expressionRule_offers ih)
      type := .nested (typeRule_offers ih)
      statement := .nested (statementRule_offers ih)
      block := .nested (blockRule_offers ih)
      structMember := .nested (structMemberRule_offers ih)
      operand := fun limit => .nested (binary_offers ih limit)
      unary := .nested (prefixed_offers ih)
      elseIf := .nested (ifRule_offers ih) }

end Grammar

open Grammar

/-- The items of a parsed program have their headers in order. -/
theorem parse_fit (source : Source) : AllFit true (parse source).1.items := by
  obtain ⟨items, t, hrun, -⟩ := statements_reach_end (Rules.within_read nestingLimit)
    (State.start (TokenStream.ofSource source))
  have heeds := statements_heeds (Rules.within_heed nestingLimit).statement false
    (State.start (TokenStream.ofSource source)) rfl
  rw [hrun] at heeds
  rw [parse_eq hrun]
  exact heeds.2

theorem Shape.WellFormed.body_isBlock {shape : Shape Node} (h : shape.WellFormed) {header : Node × Node}
    (hheader : header ∈ shape.header?) : header.2.shape.isBlock = true := by
  have holds : Slot.block.holds header.2.shape = true := by
    cases shape <;> cases hheader <;> exact h.parts _ (List.mem_cons_of_mem _ List.mem_cons_self)
  generalize header.2.shape = body at holds ⊢
  cases body <;> first | rfl | cases holds

/-- Whatever is wrong with a text, in the program read from it the body of every `if` and `while` is a block, and
    a condition that declares no variables holds no struct literal but closed in. -/
theorem parse_headers_bare (source : Source) : ∀ n ∈ (parse source).1.items.flatMap Node.preorder,
    ∀ header ∈ n.shape.header?, header.2.shape.isBlock = true ∧
      (header.1.shape.isVariable = false → ∀ m ∈ header.1.surface, m.shape.isStructLiteral = false) := by
  intro n hn header hheader
  obtain ⟨item, hitem, hn⟩ := List.mem_flatMap.mp hn
  obtain ⟨t, hmakes, -⟩ := parse_makes source
  have formed := hmakes.throughout (P := fun n => n.shape.WellFormed) (fun _ _ _ formed => formed) item hitem
  have headed : n.Headed := (parse_fit source item hitem).headers.of_mem_preorder hn
  exact ⟨(formed.of_mem_preorder hn).body_isBlock hheader, headed header hheader⟩

/-- The condition of a loop with two struct literals, an argument and a group. -/
theorem parse_headers_bare_enclosed :
    ∃ n ∈ (parse (Source.ofText 0 "a" "while f(S \x7b\x7d) == (S \x7b\x7d) \x7b\x7d")).1.items.flatMap Node.preorder,
      ∃ header ∈ n.shape.header?, header.1.shape.isVariable = false ∧
        header.1.preorder.countP (·.shape.isStructLiteral) = 2 ∧
        ∀ m ∈ header.1.surface, m.shape.isStructLiteral = false := by
  obtain ⟨n, hn, header, hheader, hvariable, hcount⟩ :
      ∃ n ∈ (parse (Source.ofText 0 "a" "while f(S \x7b\x7d) == (S \x7b\x7d) \x7b\x7d")).1.items.flatMap Node.preorder,
        ∃ header ∈ n.shape.header?, header.1.shape.isVariable = false ∧
          header.1.preorder.countP (·.shape.isStructLiteral) = 2 := by
    decide +kernel
  exact ⟨n, hn, header, hheader, hvariable, hcount, (parse_headers_bare _ n hn header hheader).2 hvariable⟩

/-- The brace behind a name in a condition starts the body. -/
example : ((parse (Source.ofText 0 "main" "if S \x7b\x7d")).1.items.flatMap Node.preorder).map (·.shape.tag) =
    ["if", "ident", "block"] := by
  decide +kernel

end BraceLang
