import BraceLang.Proofs.Grammar.Conduct.Expressions
import BraceLang.Proofs.Grammar.Spans.Declarations

/-! Declarations, statements and recovery, rule by rule, and the rules at every level of nesting
    (`Rules.within_conduct`). Recovery only takes tokens and reports the error it recovers from, so it stays
    in the area too. -/

namespace BraceLang

namespace Grammar

variable {area : Area} {r : Rules}

/-! ### Names and markers -/

theorem pattern_upholds {start : Range} (hstart : start ∈ area) :
    Upholds area (fun names => NamesWithin area names.names) (pattern start) := by
  have nothing : NamesWithin area (#[] : Array Ident).toList := List.forall_mem_nil _
  have hnames : Upholds area (fun names => NamesWithin area names.toList) (repeating #[] patternStep) := by
    refine .repeating (P := fun names : Array Ident => NamesWithin area names.toList) nothing
      fun names hnames => .check fun _ => .ite (.pure hnames) (.name fun _ hname => .eat fun _ => ?_)
    exact .ite (.pure (hnames.push hname)) (.pure (hnames.push hname))
  refine .eat fun _ => .ite (.bind hnames fun names hnames => .expect fun _ _ => ?_) ?_
  · split
    · rename_i first others heq
      rw [heq] at hnames
      exact .pure hnames
    · exact .finish hstart fun _ hrange => .throw hrange
  · exact .name fun _ hname => .pure (List.forall_mem_singleton.mpr hname)

theorem variableKeyword_upholds : Upholds area (fun _ => True) variableKeyword :=
  .eat fun _ => .ite (.pure trivial) (.expect fun _ _ => .pure trivial)

theorem overload_upholds {k : Kind} {start : Range} {name : String} (hstart : start ∈ area) :
    Upholds area (fun found => found.1.range ∈ area) (overload k start name) :=
  .finish hstart fun _ hrange => .pure hrange

theorem functionName_upholds : Upholds area (fun found => found.1.range ∈ area) functionName := by
  refine .kind fun k => .here fun start hstart => ?_
  split
  · exact .name fun _ hname => .pure hname
  · exact .advance fun _ _ => overload_upholds hstart
  · exact .advance fun _ _ => .expect fun _ _ => .eat fun _ => overload_upholds hstart
  · exact .advance fun _ _ => .expect fun _ _ => overload_upholds hstart
  · split
    · exact .advance fun _ _ => overload_upholds hstart
    · exact .unexpected

theorem functionAsync_upholds : Upholds area (fun _ => True) functionAsync := by
  refine .bind takePendingAsync_upholds fun async _ => ?_
  cases async with
  | some range => exact .pure trivial
  | none => exact .check fun _ => .ite (.advance fun _ _ => .pure trivial) (.pure trivial)

theorem skipSeparators_upholds : Upholds area (fun _ => True) skipSeparators :=
  .repeating trivial fun _ _ => .eat fun _ => .ite (.pure trivial)
    (.eat fun _ => .ite (.pure trivial) (.pure trivial))

theorem modifiers_upholds : Upholds area (fun _ => True) modifiers := by
  refine .repeating trivial fun mods _ => .kind fun k => ?_
  split
  · exact .advance fun _ _ => .pure trivial
  · exact .advance fun _ _ => .pure trivial
  · exact .pure trivial

/-! ### Recovery -/

theorem boundaryStep_upholds (inBlock : Bool) (braces : Nat) :
    Upholds area (fun _ => True) (boundaryStep inBlock braces) := by
  refine .kind fun k => ?_
  split
  · exact .pure trivial
  · exact .ite (.pure trivial) (.advance fun _ _ => .pure trivial)
  · exact .advance fun _ _ => .pure trivial
  · exact .advance fun _ _ => .pure trivial
  · exact .ite (.pure trivial) (.advance fun _ _ => .pure trivial)

theorem synchronize_upholds (mark : Nat) (inBlock : Bool) :
    Upholds area (fun _ => True) (synchronize mark inBlock) := by
  have hskip : Upholds area (fun _ => True) (skipUnmoved mark) :=
    .get fun _ => .check fun _ => .ite (.advance fun _ _ => .pure trivial) (.pure trivial)
  have hloop : Upholds area (fun _ => True) (skipToBoundary inBlock) :=
    .bind (.repeating (P := fun _ => True) trivial fun braces _ => boundaryStep_upholds inBlock braces)
      fun _ _ => .pure trivial
  exact .hold (by rintro _ ⟨⟩) (.bind hskip fun _ _ => hloop)

theorem statements_upholds {p : Parser Node} {layer : Layer} (h : Supplies area layer p) (inBlock : Bool) :
    Upholds area (AllSound area) (statements p inBlock) := by
  refine .bind (.collecting .nil fun items hitems => ?_) fun _ hitems => .pure hitems
  refine .check fun _ => .check fun _ => .ite (.pure hitems) (.get fun s => ?_)
  refine .attempt h (fun item hitem => .pure (hitems.push hitem.1)) fun e he => ?_
  exact .bind (.report he) fun _ _ => .bind (synchronize_upholds s.remaining inBlock) fun _ _ => .pure hitems

section Rules
variable (h : r.Conduct area)
include h

/-! ### Declarations -/

theorem attributes_upholds : Upholds area (AllSound area) (attributes r) := by
  refine .repeating AllSound.nil fun attrs hattrs => .eat fun _ => .ite (.expect fun _ _ => ?_) (.pure hattrs)
  exact .bind (.list h.expression) fun _ hmore => .pure (hattrs.append hmore)

theorem genericParameter_supplies : Supplies area .any (genericParameter r) := by
  have hconstraints : Upholds area (AllSound area) (constraints r) := by
    refine .eat fun _ => .ite (.bind (.collecting .nil fun types htypes => ?_) fun _ htypes => .pure htypes)
      (.pure .nil)
    exact .bind h.type fun _ hn => .eat fun _ => .ite (.pure (htypes.push hn.1)) (.pure (htypes.push hn.1))
  exact .here fun _ hstart => .name fun _ hname => .bind hconstraints fun _ htypes =>
    .close hstart (.named rfl hname rfl htypes) rfl

theorem generics_upholds : Upholds area (AllSound area) (generics r) :=
  .eat fun _ => .ite (.list (genericParameter_supplies h)) (.pure .nil)

theorem functionBody_upholds : Upholds area (fun body => AllSound area body.toList) (functionBody r) := by
  refine .check fun _ => .ite (.bind h.block fun _ hn => .pure (.one hn.1)) (.eat fun _ => .ite ?_ ?_)
  · exact .bind h.expression fun _ hn => .pure (.one hn.1)
  refine .eat fun _ => .ite (.pure .nil) (.kind fun k => ?_)
  split
  · exact .pure .nil
  · exact .pure .nil
  · exact .ite (.pure .nil) .unexpected

section Declarations
variable {attrs : List Node} {start : Range} (hattrs : AllSound area attrs) (hstart : start ∈ area)
include hattrs hstart

theorem variableDecl_supplies (mods : Modifiers) (required : Bool) :
    Supplies area .any (variableDecl r attrs mods start required) := by
  refine .bind variableKeyword_upholds fun isConst _ => .bind (pattern_upholds hstart) fun names hnames => ?_
  refine .bind (.optionalAfter h.type) fun _ htype => .bind (.optionalAfter h.expression) fun _ hinit => ?_
  refine .ite .unexpected (.close hstart ⟨hnames, List.forall_mem_nil _, ?_⟩ rfl)
  exact (hattrs.append htype).append hinit

theorem functionDecl_supplies (mods : Modifiers) : Supplies area .any (functionDecl r attrs mods start) := by
  have hgenerics (operator : Option Kind) : Upholds area (AllSound area) (functionGenerics r operator) :=
    .ite (generics_upholds h) (.pure .nil)
  refine .bind functionAsync_upholds fun _ _ => .expect fun _ _ => ?_
  refine .bind functionName_upholds fun (name, operator) hname => .bind (hgenerics operator) fun _ hparams => ?_
  refine .bind (callSignature_supplies h) fun signature hsignature => ?_
  refine .bind (functionBody_upholds h) fun _ hbody => ?_
  refine .close hstart (.named rfl ?_ rfl ?_) rfl
  · rw [overloadName_range]
    exact hname
  · exact (hattrs.append hparams).append (.cons hsignature.1 hbody)

theorem enumDecl_supplies (mods : Modifiers) : Supplies area .any (enumDecl r attrs mods start) := by
  have hoption : Supplies area .any (enumOption r) :=
    .here fun _ hstart => .bind (attributes_upholds h) fun _ hattrs => .name fun _ hname =>
      .bind (.optionalAfter h.expression) fun _ hvalue =>
        .close hstart (.named rfl hname rfl (hattrs.append hvalue)) rfl
  have hrequire (options : List Node) {range : Range} (hrange : range ∈ area) :
      Upholds area (fun _ => True) (requireOptions options range) := .ite (.report hrange) (.pure trivial)
  refine .expect fun _ _ => .name fun _ hname => .bind (.optionalAfter h.type) fun _ hbase => ?_
  refine .expect fun _ _ => .bind (.list hoption) fun options hoptions => .finish hstart fun range hrange => ?_
  refine .bind (hrequire options hrange) fun _ _ => .node hrange (.named rfl hname rfl ?_) rfl
  exact (hattrs.append hbase).append hoptions

theorem typeDecl_supplies (mods : Modifiers) : Supplies area .any (typeDecl r attrs mods start) := by
  have hmembers {first : Node} (hfirst : first.Sound area) :
      Upholds area (AllSound area) (unionMembers r first) := by
    refine .bind (.collecting (.one hfirst) fun members hmembers => ?_) fun _ hmembers => .pure hmembers
    exact .eat fun _ => .ite (.bind h.type fun _ hn => .pure (hmembers.push hn.1)) (.pure hmembers)
  refine .expect fun _ _ => .name fun _ hname => .bind (generics_upholds h) fun _ hparams => ?_
  have hheads := hattrs.append hparams
  refine .expect fun _ _ => .bind h.type fun first hfirst => .check fun _ => .ite ?_ ?_
  · exact .bind (hmembers hfirst.1) fun _ hmembers =>
      .close hstart (.named rfl hname rfl (hheads.append hmembers)) rfl
  · exact .close hstart (.named rfl hname rfl (hheads.append (.one hfirst.1))) rfl

theorem structDecl_supplies (mods : Modifiers) : Supplies area .any (structDecl r attrs mods start) := by
  have hmembers : Upholds area (fun members => AllSound area members.toList)
      (withStructLiterals true (repeating #[] (structMemberStep r))) := by
    refine .withStructLiterals (.collecting .nil fun members hmembers => .kind fun k => ?_)
    split
    · exact .pure hmembers
    · exact .pure hmembers
    · exact .bind h.structMember fun _ hn => .bind skipSeparators_upholds fun _ _ => .pure (hmembers.push hn.1)
  refine .expect fun _ _ => .name fun _ hname => .bind (generics_upholds h) fun _ hparams => ?_
  refine .expect fun _ _ => .bind hmembers fun _ hmembers => .expect fun _ _ => ?_
  exact .close hstart (.named rfl hname rfl ((hattrs.append hparams).append hmembers)) rfl

theorem declarationAfter_supplies : Supplies area .any (declarationAfter r attrs start) := by
  refine .bind modifiers_upholds fun mods _ => .kind fun k => ?_
  split
  · exact structDecl_supplies h hattrs hstart mods
  · exact enumDecl_supplies h hattrs hstart mods
  · exact typeDecl_supplies h hattrs hstart mods
  · exact variableDecl_supplies h hattrs hstart mods false
  · exact variableDecl_supplies h hattrs hstart mods false
  · exact functionDecl_supplies h hattrs hstart mods
  · exact functionDecl_supplies h hattrs hstart mods
  · exact .unexpected

end Declarations

theorem declaration_supplies : Supplies area .any (declaration r) :=
  .here fun _ hstart => .bind (attributes_upholds h) fun _ hattrs => declarationAfter_supplies h hattrs hstart

theorem structMemberRule_supplies : Supplies area .any (structMemberRule r) := by
  refine .here fun start hstart => .bind (attributes_upholds h) fun attrs hattrs => .check fun _ => ?_
  refine .check fun _ => .peek fun _ => .ite (.eat fun _ => ?_) (declarationAfter_supplies h hattrs hstart)
  refine .name fun _ hname => .expect fun _ _ => .bind h.type fun _ htype => ?_
  exact .bind (.optionalAfter h.expression) fun _ hdefault =>
    .close hstart (.named rfl hname rfl (hattrs.append (.cons htype.1 hdefault))) rfl

/-! ### Statements -/

theorem blockRule_supplies : Supplies area .suffixed (blockRule r) :=
  .here fun _ hstart => .expect fun _ _ => .bind (.withStructLiterals (statements_upholds h.statement true))
    fun _ hbody => .expect fun _ _ => .close hstart (.plain rfl rfl hbody) rfl

theorem condition_supplies : Supplies area .any (condition r) := by
  refine .kind fun _ => .ite (.here fun start hstart => ?_) (.check fun _ => .peek fun _ => .ite ?_ ?_)
  · exact .withStructLiterals (variableDecl_supplies h .nil hstart _ true)
  · exact .advance fun _ _ => .here fun start hstart =>
      .bind (.withStructLiterals (variableDecl_supplies h .nil hstart _ true)) fun _ hn =>
        .expect fun _ _ => .pure hn
  · exact .withStructLiterals h.expression

theorem elseBranch_upholds : Upholds area (fun branch => AllSound area branch.toList) (elseBranch r) :=
  .eat fun _ => .ite
    (.check fun _ => .ite (.bind h.elseIf fun _ hn => .pure (.one hn.1))
      (.bind h.block fun _ hn => .pure (.one hn.1)))
    (.pure .nil)

theorem ifRule_supplies : Supplies area .any (ifRule r) :=
  .here fun _ hstart => .expect fun _ _ => .bind (condition_supplies h) fun _ hcond =>
    .bind h.block fun _ hthen => .bind (elseBranch_upholds h) fun _ helse =>
      .close hstart (.plain rfl rfl (.cons hcond.1 (.cons hthen.1 helse))) rfl

theorem whileRule_supplies : Supplies area .any (whileRule r) :=
  .here fun _ hstart => .advance fun _ _ => .bind (condition_supplies h) fun _ hcond =>
    .bind h.block fun _ hbody => .close hstart (.plain rfl rfl (.cons hcond.1 (.one hbody.1))) rfl

theorem headerPart_upholds (stop : Kind) :
    Upholds area (fun part => AllSound area part.toList) (headerPart r stop) :=
  .bind (optionalValue_upholds h _) fun _ hpart => .expect fun _ _ => .pure hpart

theorem headerInit_upholds : Upholds area (fun part => AllSound area part.toList) (headerInit r) := by
  refine .kind fun _ => .ite (.here fun start hstart => ?_) (headerPart_upholds h .semi)
  exact .bind (variableDecl_supplies h .nil hstart _ false) fun _ hn => .expect fun _ _ => .pure (.one hn.1)

theorem forRule_supplies : Supplies area .any (forRule r) := by
  refine .here fun _ hstart => .expect fun _ _ => .expect fun _ _ => .bind (headerInit_upholds h) fun _ hinit => ?_
  refine .bind (headerPart_upholds h _) fun _ hcond => .bind (headerPart_upholds h _) fun _ hstep => ?_
  refine .bind h.block fun _ hbody => .close hstart (.plain rfl rfl ?_) rfl
  exact ((hinit.append hcond).append hstep).append (.one hbody.1)

theorem expressionStatement_supplies {start : Range} (hstart : start ∈ area) :
    Supplies area .any (expressionStatement r start) :=
  .bind h.expression fun _ hn => .close hstart (.plain rfl rfl (.one hn.1)) rfl

omit h in
theorem atFunctionDecl_upholds : Upholds area (fun _ => True) atFunctionDecl := by
  refine .peek fun k => ?_
  split
  · exact .peek fun _ => .peek fun _ => .pure trivial
  · exact .pure trivial

/-- The `async` that is kept for later is one of the tokens. -/
theorem asyncStatement_supplies : Supplies area .any (asyncStatement r) := by
  refine .here fun _ hstart => .advance fun token htoken => .hold ?_ ?_
  · rintro _ ⟨⟩
    exact htoken
  · exact .bind atFunctionDecl_upholds fun _ _ => .ite (declarationAfter_supplies h .nil hstart)
      (expressionStatement_supplies h hstart)

theorem statementBody_supplies : Supplies area .any (statementBody r) := by
  refine .here fun start hstart => .kind fun k => ?_
  split
  case h_9 =>
    exact .bind atFunctionDecl_upholds fun _ _ => .ite (declaration_supplies h)
      (expressionStatement_supplies h hstart)
  case h_10 => exact .peek fun _ => .ite (asyncStatement_supplies h) (expressionStatement_supplies h hstart)
  case h_11 => exact h.block.weaken
  case h_12 => exact ifRule_supplies h
  case h_13 => exact whileRule_supplies h
  case h_14 => exact forRule_supplies h
  case h_15 =>
    exact .advance fun _ _ => .bind h.statement fun _ hn => .close hstart (.plain rfl rfl (.one hn.1)) rfl
  case h_16 =>
    exact .advance fun _ _ => .bind (optionalValue_upholds h _) fun _ hvalue =>
      .close hstart (.plain rfl rfl hvalue) rfl
  case h_17 | h_18 => exact .advance fun _ _ => .close hstart (.plain rfl rfl .nil) rfl
  case h_19 => exact expressionStatement_supplies h hstart
  all_goals exact declaration_supplies h

theorem statementRule_supplies : Supplies area .any (statementRule r) :=
  .bind (statementBody_supplies h) fun _ hn => .eat fun _ => .pure hn

end Rules

/-- The rules at every level of nesting stay in the area and give sound nodes. -/
theorem Rules.within_conduct (area : Area) (n : Nat) : (Rules.within n).Conduct area := by
  induction n with
  | zero =>
    exact {
      expression := .tooDeep
      type := .tooDeep
      statement := .tooDeep
      block := .tooDeep
      structMember := .tooDeep
      operand := fun _ => .tooDeep
      unary := .tooDeep
      elseIf := .tooDeep
      expression_stops := fun _ _ _ hok => (tooDeep_eq_ok.mp hok).elim
      operand_stops := fun _ _ _ _ hok => (tooDeep_eq_ok.mp hok).elim }
  | succ n ih =>
    have loops := (Rules.within_read n).loopsAdvance
    exact {
      expression := .nested (expressionRule_supplies ih)
      type := .nested (typeRule_supplies ih)
      statement := .nested (statementRule_supplies ih)
      block := .nested (blockRule_supplies ih)
      structMember := .nested (structMemberRule_supplies ih)
      operand := fun limit => .nested (binary_supplies ih limit)
      unary := .nested (prefixed_supplies ih)
      elseIf := .nested (ifRule_supplies ih)
      expression_stops := .nested (expressionRule_stops ih.expression_stops)
      operand_stops := fun limit => .nested (binary_stops loops limit) }

end Grammar

open Grammar

/-- Parsing a source reads sound nodes, and goes from its first token to its end by effects in the area of
    its tokens. -/
theorem parse_conduct {area : Area} {source : Source}
    (h : (State.start (TokenStream.ofSource source)).Within area) :
    AllSound area (parse source).1.items ∧ ∃ t,
      Goes area (State.start (TokenStream.ofSource source)) t ∧ t.ahead = [] ∧ (parse source).2 = t.log := by
  obtain ⟨items, t, hrun, -, hahead⟩ := statements_reach_end (Rules.within_read nestingLimit)
    (State.start (TokenStream.ofSource source))
  have conduct := statements_upholds (Rules.within_conduct area nestingLimit).statement false _ h
  obtain ⟨goes, sound⟩ := conduct.ok hrun
  rw [parse_eq hrun]
  exact ⟨sound, t, goes, hahead, rfl⟩

end BraceLang
