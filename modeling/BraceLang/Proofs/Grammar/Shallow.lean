import BraceLang.Proofs.Grammar.Reads.Statements
import BraceLang.Proofs.Node.Depth

/-! The nesting of what is read. A rule puts a few nodes around what the rules one level deeper give, and its
    loops only put suffixes and operators behind what they have; so each level of the grammar adds a fixed
    number to the nesting of a tree. -/

namespace BraceLang.Grammar

variable {α β : Type} {b : Nat} {r : Rules}

/-! ### What holds of a result -/

/-- Whatever the parser gives is as the condition says. -/
def Ensures (P : α → Prop) (p : Parser α) : Prop := ∀ s a t, p s = .ok a t → P a

namespace Ensures
variable {P Q : α → Prop} {R : β → Prop}

theorem pure {a : α} (h : P a) : Ensures P (Pure.pure a) := by
  rintro s _ t ⟨⟩
  exact h

theorem bind {p : Parser α} {f : α → Parser β} (hp : Ensures P p)
    (hf : ∀ a, P a → Ensures R (f a)) : Ensures R (p >>= f) := by
  intro s b u hok
  obtain ⟨a, t, hrun, hrest⟩ := bind_eq_ok.mp hok
  exact hf a (hp s a t hrun) t b u hrest

/-- Nothing is asked of what is read first. -/
theorem skip {p : Parser α} {f : α → Parser β} (hf : ∀ a, Ensures R (f a)) : Ensures R (p >>= f) :=
  bind (fun _ _ _ _ => trivial) fun a (_ : True) => hf a

theorem mono {p : Parser α} (hp : Ensures Q p) (h : ∀ a, Q a → P a) : Ensures P p :=
  fun s a t hok => h a (hp s a t hok)

theorem ite {c : Prop} [Decidable c] {p q : Parser α} (hp : Ensures P p) (hq : Ensures P q) :
    Ensures P (if c then p else q) := by
  split
  · exact hp
  · exact hq

theorem unexpected {what : Expectation} : Ensures P (unexpected what : Parser α) := by
  rintro s a t ⟨⟩

theorem tooDeep : Ensures P (tooDeep : Parser α) := fun _ _ _ hok => (tooDeep_eq_ok.mp hok).elim

theorem withStructLiterals {allowed : Bool} {p : Parser α} (h : Ensures P p) :
    Ensures P (withStructLiterals allowed p) := by
  intro s a t hok
  obtain ⟨u, hrun, -⟩ := withStructLiterals_eq_ok.mp hok
  exact h _ a u hrun

theorem nested {p : Parser α} (h : Ensures P p) : Ensures P (nested p) := by
  intro s a t hok
  obtain ⟨u, hrun, -⟩ := nested_eq_ok.mp hok
  exact h _ a u hrun

/-- What one step of a loop keeps, the loop keeps. -/
theorem repeating {a : α} {step : α → Parser (ForInStep α)} (ha : P a)
    (h : ∀ a, P a → Ensures (fun r => P r.value) (step a)) : Ensures P (repeating a step) := by
  intro s c u hok
  exact repeating_invariant (I := fun a _ => P a) (fun a s r t ha hrun => h a ha s r t hrun) ha hok

end Ensures

/-! ### Low nodes -/

/-- The nodes are nested at most so deep. -/
def Low (b : Nat) (ns : List Node) : Prop := ∀ n ∈ ns, n.nesting ≤ b

namespace Low
variable {b b' : Nat} {n : Node} {ns ms : List Node}

theorem nil : Low b [] := List.forall_mem_nil _

theorem cons (hn : n.nesting ≤ b) (hns : Low b ns) : Low b (n :: ns) := List.forall_mem_cons.mpr ⟨hn, hns⟩

theorem one (hn : n.nesting ≤ b) : Low b [n] := cons hn nil

theorem append (hns : Low b ns) (hms : Low b ms) : Low b (ns ++ ms) := List.forall_mem_append.mpr ⟨hns, hms⟩

theorem mono (h : Low b ns) (hb : b ≤ b') : Low b' ns := fun n hn => Nat.le_trans (h n hn) hb

theorem push {items : Array Node} (h : Low b items.toList) (hn : n.nesting ≤ b) :
    Low b (items.push n).toList := by
  rw [Array.toList_push]
  exact h.append (one hn)

end Low

/-- The parser gives nodes that are nested at most so deep. -/
def NestsTo (b : Nat) (p : Parser Node) : Prop := Ensures (fun n => n.nesting ≤ b) p

/-- The parser gives constructs without a stem whose branches are nested at most so deep. -/
def BranchesTo (b : Nat) (p : Parser (Shape Node)) : Prop :=
  Ensures (fun shape => shape.stem? = none ∧ Low b shape.branches) p

theorem NestsTo.mono {b' : Nat} {p : Parser Node} (h : NestsTo b p) (hb : b ≤ b') : NestsTo b' p :=
  Ensures.mono h fun _ hn => Nat.le_trans hn hb

namespace Ensures

/-- A construct without a stem is nested one deeper than its parts. -/
theorem node {shape : Shape Node} {range : Range} (hstem : shape.stem? = none) (h : Low b shape.branches) :
    NestsTo (b + 1) (node shape range) := by
  intro s n t hok
  obtain ⟨rfl, -⟩ := node_eq_ok.mp hok
  refine Node.nesting_le_iff.mpr ⟨fun c hc => ?_, fun c hc => Nat.lt_succ_of_le (h c hc)⟩
  rw [hstem] at hc
  cases hc

theorem close {shape : Shape Node} {start : Range} (hstem : shape.stem? = none) (h : Low b shape.branches) :
    NestsTo (b + 1) (close start shape) := skip fun _ => node hstem h

/-- What is put behind a stem adds nothing to the nesting of the stem. -/
theorem extend {shape : Shape Node} {start : Range} {x : Node} (hstem : shape.stem? = some x)
    (hx : x.nesting ≤ b + 1) (h : Low b shape.branches) : NestsTo (b + 1) (Grammar.close start shape) := by
  intro s n t hok
  obtain ⟨rfl, -⟩ := close_eq_ok.mp hok
  refine Node.nesting_le_iff.mpr ⟨fun c hc => ?_, fun c hc => Nat.lt_succ_of_le (h c hc)⟩
  rw [hstem] at hc
  cases hc
  exact hx

/-- A loop that collects low nodes. -/
theorem collecting (b : Nat) {items : Array Node} {step : Array Node → Parser (ForInStep (Array Node))}
    (hitems : Low b items.toList)
    (h : ∀ items, Low b items.toList → Ensures (fun r => Low b r.value.toList) (step items)) :
    Ensures (fun items => Low b items.toList) (Grammar.repeating items step) := repeating hitems h

theorem list {closing : Kind} {item : Parser Node} (h : NestsTo b item) :
    Ensures (Low b) (list closing item) := by
  refine .withStructLiterals (.bind (.collecting b .nil fun items hitems => ?_) fun items hitems => ?_)
  · refine .skip fun _ => .ite (.pure hitems) (.bind h fun n hn => .skip fun _ => ?_)
    exact .ite (.pure (hitems.push hn)) (.pure (hitems.push hn))
  · exact .skip fun _ => .pure hitems

theorem optionalAfter {k : Kind} {item : Parser Node} (h : NestsTo b item) :
    Ensures (fun found => Low b found.toList) (optionalAfter k item) :=
  .skip fun _ => .ite (.bind h fun _ hn => .pure (.one hn)) (.pure .nil)

/-- Only statements that could be read are kept. -/
theorem statements {p : Parser Node} {inBlock : Bool} (h : NestsTo b p) :
    Ensures (Low b) (statements p inBlock) := by
  refine .bind (.collecting b .nil fun items hitems s step t hok => ?_) fun items hitems => .pure hitems
  rcases statementStep_cases hok with ⟨rfl, -, -⟩ | ⟨item, hrun, rfl⟩ | ⟨err, u, -, -, -, -, rfl⟩
  · exact hitems
  · exact hitems.push (h s item t hrun)
  · exact hitems

end Ensures

/-- What the rules one level deeper give is nested at most so deep. -/
structure Rules.NestTo (r : Rules) (b : Nat) : Prop where
  expression : NestsTo b r.expression
  type : NestsTo b r.type
  statement : NestsTo b r.statement
  block : NestsTo b r.block
  structMember : NestsTo b r.structMember
  operand (limit : Nat) : NestsTo b (r.operand limit)
  unary : NestsTo b r.unary
  elseIf : NestsTo b r.elseIf

section Rules
variable (h : r.NestTo b)
include h

/-! ### Types -/

theorem typeSuffixStep_nests {start : Range} {type : Node} (htype : type.nesting ≤ b + 2) :
    Ensures (fun step => step.value.nesting ≤ b + 2) (typeSuffixStep r start type) := by
  refine .skip fun _ => .ite ?_ (.skip fun _ => .ite ?_ (.pure htype))
  · have hsize : Ensures (fun size => Low b size.toList) (arraySize r) :=
      .skip fun _ => .ite (.pure .nil) (.bind (.withStructLiterals h.expression) fun _ hn => .pure (.one hn))
    refine .bind hsize fun size hsize => .skip fun _ => ?_
    exact .bind (.extend rfl htype (hsize.mono (Nat.le_succ b))) fun _ hn => .pure hn
  · exact .bind (.extend rfl htype .nil) fun _ hn => .pure hn

theorem namedType_branches : BranchesTo b (namedType r) :=
  .skip fun _ => .skip fun _ => .skip fun _ => .skip fun _ => .ite
    (.skip fun _ => .bind (.list h.type) fun _ hargs => .pure ⟨rfl, hargs⟩)
    (.pure ⟨rfl, .nil⟩)

theorem pointee_branches : BranchesTo b (pointee r) :=
  .skip fun _ => .bind h.type fun _ hn => .pure ⟨rfl, .one hn⟩

theorem baseType_branches : BranchesTo (b + 1) (baseType r) := by
  have weaken {p : Parser (Shape Node)} (hp : BranchesTo b p) : BranchesTo (b + 1) p :=
    Ensures.mono hp fun _ ⟨hstem, hlow⟩ => ⟨hstem, hlow.mono (Nat.le_succ b)⟩
  refine .skip fun k => .ite (.skip fun _ => .pure ⟨rfl, .nil⟩) ?_
  split
  · exact weaken (namedType_branches h)
  · exact weaken (.skip fun _ => .bind (.list h.type) fun _ hparts => .pure ⟨rfl, hparts⟩)
  · exact weaken (.skip fun _ => .skip fun _ => .bind (.list h.type) fun _ hparams =>
      .bind (.optionalAfter h.type) fun _ hresult => .pure ⟨rfl, hparams.append hresult⟩)
  · exact weaken (.skip fun _ => pointee_branches h)
  · exact .skip fun _ => .skip fun _ => .bind (pointee_branches h) fun _ ⟨hstem, hlow⟩ =>
      .bind (.close hstem hlow) fun _ hn => .pure ⟨rfl, .one hn⟩
  · exact .unexpected

theorem typeRule_nests : NestsTo (b + 2) (typeRule r) :=
  .skip fun _ => .bind (baseType_branches h) fun _ ⟨hstem, hlow⟩ =>
    .bind (.close hstem hlow) fun _ hn => .repeating hn fun _ htype => typeSuffixStep_nests h htype

/-! ### Signatures and closures -/

theorem parameter_nests : NestsTo (b + 1) (parameter r) :=
  .skip fun _ => .skip fun _ => .bind (.optionalAfter h.type) fun _ htype =>
    .bind (.optionalAfter h.expression) fun _ hdefault => .close rfl (htype.append hdefault)

theorem callSignature_nests : NestsTo (b + 2) (callSignature r) :=
  .skip fun _ => .skip fun _ => .bind (.list (parameter_nests h)) fun _ hparams =>
    .bind (.optionalAfter h.type) fun _ hresult =>
      .close rfl (hparams.append (hresult.mono (Nat.le_succ b)))

theorem closureBody_nests : NestsTo b (closureBody r) :=
  .skip fun _ => .ite h.expression (.skip fun _ => .ite h.block .unexpected)

theorem closure_nests : NestsTo (b + 3) (closure r) :=
  .skip fun _ => .skip fun _ => .bind (callSignature_nests h) fun _ hsignature =>
    .bind (closureBody_nests h) fun _ hbody =>
      .close rfl (.cons hsignature (.one (Nat.le_add_right_of_le hbody)))

/-! ### Primaries -/

theorem template_nests : NestsTo (b + 1) (template r) := by
  refine .skip fun _ => .skip fun _ => .bind (.collecting b .nil fun parts hparts => ?_) fun _ hparts =>
    .close rfl hparts
  refine .skip fun k => ?_
  split
  · exact .skip fun _ => .pure hparts
  · refine .skip fun token => .ite (.pure hparts) (.bind (P := fun n => n.nesting ≤ b) ?_ fun _ hn => ?_)
    · intro s n t hok
      obtain ⟨rfl, -⟩ := node_eq_ok.mp hok
      exact Nat.zero_le b
    · exact .pure (hparts.push hn)
  · exact .unexpected
  · exact .bind (.withStructLiterals h.expression) fun _ hn => .pure (hparts.push hn)

theorem insideParens_branches : BranchesTo b (insideParens r) := by
  refine .skip fun _ => .ite (.skip fun _ => .pure ⟨rfl, .nil⟩) (.bind h.expression fun first hfirst => ?_)
  have helements : Ensures (Low b) (moreElements r first) := by
    refine .bind (.collecting b (.one hfirst) fun elements helements => ?_) fun _ helements => .pure helements
    exact .skip fun _ => .skip fun _ => .ite
      (.bind h.expression fun _ hn => .pure (helements.push hn)) (.pure helements)
  refine .skip fun isTuple => .bind helements fun elements helements => .skip fun _ => .pure ?_
  cases isTuple with
  | true => exact ⟨rfl, helements⟩
  | false => exact ⟨rfl, .one hfirst⟩

theorem parenthesized_nests : NestsTo (b + 1) (parenthesized r) :=
  .skip fun _ => .skip fun _ => .bind (.withStructLiterals (insideParens_branches h)) fun _ ⟨hstem, hlow⟩ =>
    .close hstem hlow

theorem fieldInit_nests : NestsTo (b + 1) (fieldInit r) :=
  .skip fun _ => .skip fun _ => .skip fun _ => .bind h.expression fun _ hn => .close rfl (.one hn)

theorem nameOrStructLiteral_nests : NestsTo (b + 2) (nameOrStructLiteral r) := by
  refine .skip fun _ => .skip fun token => .bind (P := fun n => n.nesting = 0) ?_ fun path hpath => ?_
  · intro s n t hok
    obtain ⟨rfl, -⟩ := node_eq_ok.mp hok
    rfl
  refine .skip fun _ => .skip fun _ => .skip fun _ => .ite (.skip fun _ => ?_) (.pure ?_)
  · exact .bind (.list (fieldInit_nests h)) fun _ hfields => .close rfl (.cons (hpath ▸ Nat.zero_le _) hfields)
  · exact hpath ▸ Nat.zero_le _

theorem optionalValue_low (ends : Kind → Bool) :
    Ensures (fun value => Low b value.toList) (optionalValue ends r) :=
  .skip fun _ => .ite (.pure .nil) (.bind h.expression fun _ hn => .pure (.one hn))

omit h in
theorem literal_nests (token : Token) : NestsTo (b + 1) (node (literal token) token.range) := by
  unfold literal
  split <;> exact .node rfl .nil

theorem primary_nests : NestsTo (b + 3) (primary r) := by
  have weaken {p : Parser Node} (hp : NestsTo (b + 1) p) : NestsTo (b + 3) p := hp.mono (by omega)
  refine .skip fun _ => .skip fun k => ?_
  split
  case h_7 => exact weaken (template_nests h)
  case h_8 => exact weaken (parenthesized_nests h)
  case h_9 => exact h.block.mono (by omega)
  case h_10 => exact weaken (.skip fun _ => .bind (.list h.expression) fun _ hparts => .close rfl hparts)
  case h_11 => exact weaken (.skip fun _ => .skip fun _ => .close rfl .nil)
  case h_12 => exact (nameOrStructLiteral_nests h).mono (by omega)
  case h_13 | h_14 => exact closure_nests h
  case h_15 =>
    exact weaken (.skip fun _ => .bind h.type fun _ htype => .skip fun _ => .bind (.list h.expression)
      fun _ hargs => .close rfl (.cons htype hargs))
  case h_16 => exact weaken (.skip fun _ => .bind (optionalValue_low h _) fun _ hvalue => .close rfl hvalue)
  case h_17 => exact weaken (.skip fun _ => .bind h.expression fun _ hn => .close rfl (.one hn))
  case h_18 => exact .unexpected
  all_goals exact weaken (.skip fun token => literal_nests token)

/-! ### Operators -/

omit h in
theorem memberName_nests : NestsTo (b + 1) memberName := by
  refine .skip fun k => ?_
  split
  · exact .skip fun _ => .node rfl .nil
  · exact .skip fun _ => .node rfl .nil
  · exact .unexpected

/-- A suffix puts a construct behind its target. -/
theorem suffix?_extends (target : Node) :
    Ensures (fun found => ∀ shape ∈ found, shape.stem? = some target ∧ Low (b + 2) shape.branches)
      (suffix? r target) := by
  have found {shape : Shape Node} (hstem : shape.stem? = some target) (hlow : Low (b + 1) shape.branches) :
      ∀ other ∈ some shape, other.stem? = some target ∧ Low (b + 2) other.branches := by
    rintro other ⟨⟩
    exact ⟨hstem, hlow.mono (by omega)⟩
  have raise {ns : List Node} (hns : Low b ns) : Low (b + 1) ns := hns.mono (Nat.le_succ b)
  refine .skip fun k => ?_
  split
  · exact .skip fun _ => .pure (found rfl .nil)
  · exact .skip fun _ => .pure (found rfl .nil)
  · exact .skip fun _ => .bind memberName_nests fun _ hn => .pure (found rfl (.one hn))
  · exact .skip fun _ => .bind memberName_nests fun _ hn => .pure (found rfl (.one hn))
  · exact .skip fun _ => .bind (.list h.expression) fun _ hargs => .pure (found rfl (raise hargs))
  · refine .skip fun _ => .skip fun _ => .ite ?_ (.pure (found rfl .nil))
    exact .bind (.list h.expression) fun _ hargs => .pure (found rfl (raise hargs))
  · exact .skip fun _ => .bind (.list h.expression) fun _ hargs => .pure (found rfl (raise hargs))
  · exact .skip fun _ => .bind h.type fun _ hn => .pure (found rfl (raise (.one hn)))
  · exact .pure fun _ hshape => by cases hshape

theorem suffixed_nests : NestsTo (b + 3) (suffixed r) := by
  refine .skip fun start => .bind (primary_nests h) fun _ hn => .repeating hn fun target htarget => ?_
  refine .bind (suffix?_extends h target) fun found hfound => ?_
  cases found with
  | some shape =>
    obtain ⟨hstem, hlow⟩ := hfound shape rfl
    exact .bind (.extend hstem htarget hlow) fun _ hn => .pure hn
  | none => exact .pure htarget

theorem prefixed_nests : NestsTo (b + 3) (prefixed r) :=
  .skip fun _ => .ite
    (.skip fun _ => .skip fun _ => .bind h.unary fun _ hn =>
      NestsTo.mono (.close rfl (.one hn)) (by omega))
    (suffixed_nests h)

theorem binary_nests (limit : Nat) : NestsTo (b + 3) (binary r limit) := by
  refine .skip fun _ => .bind (prefixed_nests h) fun _ hn => .repeating hn fun lhs hlhs => ?_
  refine .skip fun op => .ite (.skip fun _ => .bind (h.operand _) fun rhs hrhs => ?_) (.pure hlhs)
  exact .bind (.extend rfl hlhs (.one (Nat.le_add_right_of_le hrhs))) fun _ hn => .pure hn

theorem assignment_nests : NestsTo (b + 4) (assignment r) := by
  refine .skip fun _ => .bind (binary_nests h _) fun target htarget => .skip fun op => ?_
  refine .ite (.skip fun _ => .bind h.expression fun value hvalue => ?_) (.pure (Nat.le_succ_of_le htarget))
  exact .close rfl (.cons htarget (.one (Nat.le_add_right_of_le hvalue)))

theorem expressionRule_nests : NestsTo (b + 5) (expressionRule r) := by
  refine .skip fun _ => .bind (assignment_nests h) fun condition hcondition => .skip fun k => ?_
  refine .ite (.skip fun _ => ?_) (.pure (Nat.le_succ_of_le hcondition))
  have hmiddle : Ensures (fun branch => Low b branch.toList) (middleBranch r) :=
    .skip fun _ => .ite (.pure .nil) (.bind h.expression fun _ hn => .skip fun _ => .pure (.one hn))
  refine .bind hmiddle fun _ htrue => .bind h.expression fun _ hfalse => .close rfl ?_
  exact .cons hcondition ((htrue.mono (by omega)).append (.one (by omega)))

/-! ### Declarations -/

theorem attributes_low : Ensures (Low b) (attributes r) := by
  refine .repeating Low.nil fun attrs hattrs => .skip fun _ => .ite (.skip fun _ => ?_) (.pure hattrs)
  exact .bind (.list h.expression) fun _ hmore => .pure (hattrs.append hmore)

theorem genericParameter_nests : NestsTo (b + 1) (genericParameter r) := by
  have hconstraints : Ensures (Low b) (constraints r) := by
    refine .skip fun _ => .ite (.bind (.collecting b .nil fun types htypes => ?_) fun _ htypes => .pure htypes)
      (.pure .nil)
    exact .bind h.type fun _ hn => .skip fun _ => .ite (.pure (htypes.push hn)) (.pure (htypes.push hn))
  exact .skip fun _ => .skip fun _ => .bind hconstraints fun _ hlow => .close rfl hlow

theorem generics_low : Ensures (Low (b + 1)) (generics r) :=
  .skip fun _ => .ite (.list (genericParameter_nests h)) (.pure .nil)

section Declarations
variable {attrs : List Node} (hattrs : Low b attrs)
include hattrs

theorem variableDecl_nests (mods : Modifiers) (start : Range) (required : Bool) :
    NestsTo (b + 1) (variableDecl r attrs mods start required) :=
  .skip fun _ => .skip fun _ => .bind (.optionalAfter h.type) fun _ htype =>
    .bind (.optionalAfter h.expression) fun _ hinit => .ite .unexpected
      (.close rfl ((hattrs.append htype).append hinit))

theorem functionDecl_nests (mods : Modifiers) (start : Range) :
    NestsTo (b + 3) (functionDecl r attrs mods start) := by
  have hgenerics (operator : Option Kind) : Ensures (Low (b + 1)) (functionGenerics r operator) :=
    .ite (generics_low h) (.pure .nil)
  have hbody : Ensures (fun body => Low b body.toList) (functionBody r) := by
    refine .skip fun _ => .ite (.bind h.block fun _ hn => .pure (.one hn)) (.skip fun _ => .ite ?_ ?_)
    · exact .bind h.expression fun _ hn => .pure (.one hn)
    refine .skip fun _ => .ite (.pure .nil) (.skip fun k => ?_)
    split
    · exact .pure .nil
    · exact .pure .nil
    · exact .ite (.pure .nil) .unexpected
  refine .skip fun _ => .skip fun _ => .skip fun (_, operator) => .bind (hgenerics operator) fun _ hparams => ?_
  refine .bind (callSignature_nests h) fun _ hsignature => .bind hbody fun _ hbody => .close rfl ?_
  have hheads := (hattrs.mono (Nat.le_add_right b 2)).append (hparams.mono (Nat.le_succ (b + 1)))
  exact hheads.append (.cons hsignature (hbody.mono (Nat.le_add_right b 2)))

theorem enumDecl_nests (mods : Modifiers) (start : Range) :
    NestsTo (b + 2) (enumDecl r attrs mods start) := by
  have hoption : NestsTo (b + 1) (enumOption r) :=
    .skip fun _ => .bind (attributes_low h) fun _ hattrs => .skip fun _ =>
      .bind (.optionalAfter h.expression) fun _ hvalue => .close rfl (hattrs.append hvalue)
  refine .skip fun _ => .skip fun _ => .bind (.optionalAfter h.type) fun _ hbase => .skip fun _ => ?_
  refine .bind (.list hoption) fun _ hoptions => .skip fun _ => .skip fun _ => .node rfl ?_
  exact ((hattrs.append hbase).mono (Nat.le_succ b)).append hoptions

theorem typeDecl_nests (mods : Modifiers) (start : Range) :
    NestsTo (b + 2) (typeDecl r attrs mods start) := by
  refine .skip fun _ => .skip fun _ => .bind (generics_low h) fun _ hparams => .skip fun _ => ?_
  have hheads := (hattrs.mono (Nat.le_succ b)).append hparams
  refine .bind h.type fun first hfirst => .skip fun _ => .ite ?_
    (.close rfl (hheads.append (.one (Nat.le_succ_of_le hfirst))))
  have hmembers : Ensures (Low b) (unionMembers r first) := by
    refine .bind (.collecting b (.one hfirst) fun members hmembers => ?_) fun _ hmembers => .pure hmembers
    exact .skip fun _ => .ite (.bind h.type fun _ hn => .pure (hmembers.push hn)) (.pure hmembers)
  exact .bind hmembers fun _ hmembers => .close rfl (hheads.append (hmembers.mono (Nat.le_succ b)))

theorem structDecl_nests (mods : Modifiers) (start : Range) :
    NestsTo (b + 2) (structDecl r attrs mods start) := by
  have hmembers : Ensures (fun members => Low b members.toList)
      (withStructLiterals true (repeating #[] (structMemberStep r))) := by
    refine .withStructLiterals (.collecting b .nil fun members hmembers => .skip fun k => ?_)
    split
    · exact .pure hmembers
    · exact .pure hmembers
    · exact .bind h.structMember fun _ hn => .skip fun _ => .pure (hmembers.push hn)
  refine .skip fun _ => .skip fun _ => .bind (generics_low h) fun _ hparams => .skip fun _ => ?_
  refine .bind hmembers fun _ hmembers => .skip fun _ => .close rfl ?_
  exact ((hattrs.mono (Nat.le_succ b)).append hparams).append (hmembers.mono (Nat.le_succ b))

theorem declarationAfter_nests (start : Range) : NestsTo (b + 3) (declarationAfter r attrs start) := by
  have weaken {p : Parser Node} (hp : NestsTo (b + 2) p) : NestsTo (b + 3) p := hp.mono (Nat.le_succ _)
  refine .skip fun mods => .skip fun k => ?_
  split
  · exact weaken (structDecl_nests h hattrs mods start)
  · exact weaken (enumDecl_nests h hattrs mods start)
  · exact weaken (typeDecl_nests h hattrs mods start)
  · exact (variableDecl_nests h hattrs mods start false).mono (by omega)
  · exact (variableDecl_nests h hattrs mods start false).mono (by omega)
  · exact functionDecl_nests h hattrs mods start
  · exact functionDecl_nests h hattrs mods start
  · exact .unexpected

end Declarations

theorem declaration_nests : NestsTo (b + 3) (declaration r) :=
  .skip fun start => .bind (attributes_low h) fun _ hattrs => declarationAfter_nests h hattrs start

theorem structMemberRule_nests : NestsTo (b + 3) (structMemberRule r) := by
  refine .skip fun start => .bind (attributes_low h) fun attrs hattrs => .skip fun _ => .skip fun _ => ?_
  refine .skip fun _ => .ite ?_ (declarationAfter_nests h hattrs start)
  refine .skip fun _ => .skip fun _ => .skip fun _ => .bind h.type fun _ htype => ?_
  refine .bind (.optionalAfter h.expression) fun _ hdefault => ?_
  exact NestsTo.mono (.close rfl (hattrs.append (.cons htype hdefault))) (by omega)

/-! ### Statements -/

theorem blockRule_nests : NestsTo (b + 1) (blockRule r) :=
  .skip fun _ => .skip fun _ => .bind (.withStructLiterals (.statements h.statement)) fun _ hbody =>
    .skip fun _ => .close rfl hbody

theorem condition_nests : NestsTo (b + 1) (condition r) := by
  refine .skip fun _ => .ite (.skip fun start => ?_) (.skip fun _ => .skip fun _ => .ite ?_ ?_)
  · exact .withStructLiterals (variableDecl_nests h .nil _ start true)
  · exact .skip fun _ => .skip fun start => .bind (.withStructLiterals (variableDecl_nests h .nil _ start true))
      fun _ hn => .skip fun _ => .pure hn
  · exact .withStructLiterals (h.expression.mono (Nat.le_succ b))

theorem elseBranch_low : Ensures (fun branch => Low b branch.toList) (elseBranch r) :=
  .skip fun _ => .ite
    (.skip fun _ => .ite (.bind h.elseIf fun _ hn => .pure (.one hn)) (.bind h.block fun _ hn => .pure (.one hn)))
    (.pure .nil)

theorem ifRule_nests : NestsTo (b + 2) (ifRule r) := by
  refine .skip fun _ => .skip fun _ => .bind (condition_nests h) fun _ hcond => .bind h.block fun _ hthen => ?_
  refine .bind (elseBranch_low h) fun _ helse => .close rfl ?_
  exact .cons hcond (.cons (Nat.le_succ_of_le hthen) (helse.mono (Nat.le_succ b)))

theorem whileRule_nests : NestsTo (b + 2) (whileRule r) :=
  .skip fun _ => .skip fun _ => .bind (condition_nests h) fun _ hcond => .bind h.block fun _ hbody =>
    .close rfl (.cons hcond (.one (Nat.le_succ_of_le hbody)))

theorem headerPart_low (stop : Kind) : Ensures (fun part => Low b part.toList) (headerPart r stop) :=
  .bind (optionalValue_low h _) fun _ hpart => .skip fun _ => .pure hpart

theorem headerInit_low : Ensures (fun part => Low (b + 1) part.toList) (headerInit r) := by
  refine .skip fun _ => .ite (.skip fun start => ?_) ?_
  · exact .bind (variableDecl_nests h .nil _ start false) fun _ hn => .skip fun _ => .pure (.one hn)
  · exact Ensures.mono (headerPart_low h .semi) fun _ hpart => hpart.mono (Nat.le_succ b)

theorem forRule_nests : NestsTo (b + 2) (forRule r) := by
  refine .skip fun _ => .skip fun _ => .skip fun _ => .bind (headerInit_low h) fun _ hinit => ?_
  refine .bind (headerPart_low h _) fun _ hcond => .bind (headerPart_low h _) fun _ hstep => ?_
  refine .bind h.block fun _ hbody => .close rfl ?_
  have raise {ns : List Node} (hns : Low b ns) : Low (b + 1) ns := hns.mono (Nat.le_succ b)
  exact ((hinit.append (raise hcond)).append (raise hstep)).append (raise (.one hbody))

theorem expressionStatement_nests (start : Range) : NestsTo (b + 1) (expressionStatement r start) :=
  .bind h.expression fun _ hn => .close rfl (.one hn)

theorem statementRule_nests : NestsTo (b + 3) (statementRule r) := by
  have lift {p : Parser Node} (hp : NestsTo (b + 1) p) : NestsTo (b + 3) p := hp.mono (by omega)
  have hexpression (start : Range) : NestsTo (b + 3) (expressionStatement r start) :=
    lift (expressionStatement_nests h start)
  refine .bind (P := fun n => n.nesting ≤ b + 3) (.skip fun start => .skip fun k => ?_) fun _ hn =>
    .skip fun _ => .pure hn
  split
  case h_9 => exact .skip fun _ => .ite (declaration_nests h) (hexpression start)
  case h_10 =>
    refine .skip fun _ => .ite (.skip fun start => .skip fun _ => .skip fun _ => .skip fun _ => ?_)
      (hexpression start)
    exact .ite (declarationAfter_nests h .nil start) (hexpression start)
  case h_11 => exact h.block.mono (by omega)
  case h_12 => exact (ifRule_nests h).mono (by omega)
  case h_13 => exact (whileRule_nests h).mono (by omega)
  case h_14 => exact (forRule_nests h).mono (by omega)
  case h_15 => exact lift (.skip fun _ => .bind h.statement fun _ hn => .close rfl (.one hn))
  case h_16 => exact lift (.skip fun _ => .bind (optionalValue_low h _) fun _ hvalue => .close rfl hvalue)
  case h_17 | h_18 => exact lift (.skip fun _ => .close rfl .nil)
  case h_19 => exact hexpression start
  all_goals exact declaration_nests h

end Rules

/-- Each level of the grammar nests at most five deeper than the next. -/
theorem Rules.within_nestTo (n : Nat) : (Rules.within n).NestTo (5 * n) := by
  induction n with
  | zero =>
    exact {
      expression := .tooDeep
      type := .tooDeep
      statement := .tooDeep
      block := .tooDeep
      structMember := .tooDeep
      operand := fun _ => .tooDeep
      unary := .tooDeep
      elseIf := .tooDeep }
  | succ n ih =>
    have lift {b : Nat} {p : Parser Node} (h : NestsTo b p) (hb : b ≤ 5 * n + 5) :
        NestsTo (5 * (n + 1)) (nested p) := .nested (h.mono hb)
    exact {
      expression := lift (expressionRule_nests ih) (by omega)
      type := lift (typeRule_nests ih) (by omega)
      statement := lift (statementRule_nests ih) (by omega)
      block := lift (blockRule_nests ih) (by omega)
      structMember := lift (structMemberRule_nests ih) (by omega)
      operand := fun limit => lift (binary_nests ih limit) (by omega)
      unary := lift (prefixed_nests ih) (by omega)
      elseIf := lift (ifRule_nests ih) (by omega) }

end BraceLang.Grammar
