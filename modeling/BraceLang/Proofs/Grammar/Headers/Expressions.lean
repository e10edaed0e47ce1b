import BraceLang.Proofs.Grammar.Headers

/-! Types and expressions, rule by rule: each leaves it as it was whether struct literals may start, and where
    none may start, none is given but closed in. The only rule that looks at it is the one for names
    (`nameOrStructLiteral_offers`). -/

namespace BraceLang.Grammar

variable {r : Rules} {allowed : Bool}

section Rules
variable (h : r.Heed)
include h

/-! ### Types -/

theorem typeSuffixStep_heeds {start : Range} {type : Node} (htype : type.Fit false) :
    Heeds allowed (fun step => step.value.Fit false) (typeSuffixStep r start type) := by
  have hsize : Heeds allowed (fun size => AllFit true size.toList) (arraySize r) :=
    .check fun _ => .ite (.pure .nil) (.bind (.withStructLiterals h.expression) fun _ hn => .pure (.one hn))
  refine .eat fun _ => .ite ?_ (.eat fun _ => .ite ?_ (.pure htype))
  · refine .bind hsize fun size hsize => .expect fun _ => ?_
    exact .bind (.close (.enclosing rfl rfl (.one htype) (.cons htype.freely hsize))) fun _ hn => .pure hn
  · exact .bind (.close (.plainly rfl rfl (.one htype))) fun _ hn => .pure hn

theorem namedType_heeds : Heeds allowed (Shape.Fit false) (namedType r) := by
  refine .name fun head => .seq .pathRest fun path => .check fun _ => ?_
  refine .seq .atArraySuffix fun _ => .ite (.advance fun _ => ?_) (.pure (.enclosing rfl rfl .nil .nil))
  exact .bind (.list h.type) fun args hargs => .pure (.enclosing rfl rfl .nil hargs.freely)

theorem pointee_heeds : Heeds allowed (Shape.Fit false) (pointee r) :=
  .eat fun _ => .bind h.type fun _ hn => .pure (.plainly rfl rfl (.one hn))

theorem baseType_heeds : Heeds allowed (Shape.Fit false) (baseType r) := by
  refine .kind fun k => .ite (.advance fun _ => .pure (.plainly rfl rfl .nil)) ?_
  split
  · exact namedType_heeds h
  · exact .advance fun _ => .bind (.list h.type) fun _ hparts => .pure (.plainly rfl rfl hparts)
  · exact .advance fun _ => .expect fun _ => .bind (.list h.type) fun _ hparams =>
      .bind (.optionalAfter h.type) fun _ hresult => .pure (.plainly rfl rfl (hparams.append hresult))
  · exact .advance fun _ => pointee_heeds h
  · refine .advance fun _ => .here fun _ => .bind (pointee_heeds h) fun _ hshape => ?_
    exact .bind (.close hshape) fun _ hn => .pure (.plainly rfl rfl (.one hn))
  · exact .unexpected

theorem typeRule_offers : Offers allowed false (typeRule r) :=
  .here fun _ => .bind (baseType_heeds h) fun _ hshape => .bind (.close hshape) fun _ hn =>
    .repeating hn fun _ htype => typeSuffixStep_heeds h htype

/-! ### Signatures and closures -/

theorem parameter_offers : Offers true true (parameter r) :=
  .here fun _ => .name fun _ => .bind (.optionalAfter h.type) fun _ htype =>
    .bind (.optionalAfter h.expression) fun _ hdefault => .close (.freely rfl (htype.freely.append hdefault))

theorem callSignature_offers : Offers allowed false (callSignature r) :=
  .here fun _ => .expect fun _ => .bind (.list (parameter_offers h)) fun _ hparams =>
    .bind (.optionalAfter h.type) fun _ hresult =>
      .close (.enclosing rfl rfl hresult (hparams.append hresult.freely))

theorem closureBody_offers : Offers allowed allowed (closureBody r) :=
  .eat fun _ => .ite h.expression (.check fun _ => .ite (.mono h.block fun _ hn => hn.loosen) .unexpected)

theorem closure_offers : Offers allowed allowed (closure r) :=
  .seq .closureStart fun _ => .expect fun _ => .bind (callSignature_offers h) fun _ hsignature =>
    .bind (closureBody_offers h) fun _ hbody => .close (.plainly rfl rfl (.cons hsignature.loosen (.one hbody)))

/-! ### Primaries -/

theorem template_offers : Offers allowed false (template r) := by
  refine .here fun _ => .expect fun _ => .bind (.collecting true .nil fun parts hparts => ?_)
    fun _ hparts => .close (.enclosing rfl rfl .nil hparts)
  refine .kind fun k => ?_
  split
  · exact .advance fun _ => .pure hparts
  · refine .advance fun token => .ite (.pure hparts) ?_
    have htext : Offers allowed true (node (.str token.text) token.range) := .node (.freely rfl .nil)
    exact .bind htext fun _ hn => .pure (hparts.push hn)
  · exact .unexpected
  · exact .bind (.withStructLiterals h.expression) fun _ hn => .pure (hparts.push hn)

theorem moreElements_heeds {first : Node} (hfirst : first.Fit true) :
    Heeds true (AllFit true) (moreElements r first) := by
  refine .bind (.collecting true (.one hfirst) fun elements helements => ?_) fun _ helements => .pure helements
  exact .eat fun _ => .check fun _ => .ite (.bind h.expression fun _ hn => .pure (helements.push hn))
    (.pure helements)

theorem insideParens_heeds : Heeds true (Shape.Fit false) (insideParens r) := by
  refine .check fun _ => .ite (.expect fun _ => .pure (.plainly rfl rfl .nil)) ?_
  refine .bind h.expression fun first hfirst => .check fun isTuple => ?_
  refine .bind (moreElements_heeds h hfirst) fun elements helements => .expect fun _ => .pure ?_
  cases isTuple with
  | true => exact .enclosing rfl rfl .nil helements
  | false => exact .enclosing rfl rfl .nil (.one hfirst)

theorem parenthesized_offers : Offers allowed false (parenthesized r) :=
  .here fun _ => .expect fun _ => .bind (.withStructLiterals (insideParens_heeds h)) fun _ hshape => .close hshape

theorem fieldInit_offers : Offers true true (fieldInit r) :=
  .here fun _ => .name fun _ => .expect fun _ => .bind h.expression fun _ hn => .close (.freely rfl (.one hn))

/-- Where no struct literal may start, a name is all there is. -/
theorem nameOrStructLiteral_offers : Offers allowed allowed (nameOrStructLiteral r) := by
  refine .here fun _ => .advance fun token => ?_
  have hname : Offers allowed allowed (node (.name token.text) token.range) := .node (.plainly rfl rfl .nil)
  refine .bind hname fun path hpath => .get fun s hs => .check fun _ => .seq .atStructLiteral fun _ => ?_
  cases allowed with
  | true =>
    refine .ite (.expect fun _ => .bind (.list (fieldInit_offers h)) fun _ hfields => ?_) (.pure hpath)
    exact .close (.freely rfl (.cons hpath hfields))
  | false =>
    rw [hs, Bool.false_and, Bool.false_and, if_neg Bool.false_ne_true]
    exact .pure hpath

theorem optionalValue_heeds (ends : Kind → Bool) :
    Heeds allowed (fun value => AllFit allowed value.toList) (optionalValue ends r) :=
  .kind fun _ => .ite (.pure .nil) (.bind h.expression fun _ hn => .pure (.one hn))

omit h in
theorem literal_offers {free : Bool} {token : Token} : Offers allowed free (node (literal token) token.range) := by
  unfold literal
  split <;> exact .node (.plainly rfl rfl .nil)

theorem primary_offers : Offers allowed allowed (primary r) := by
  have loosen {p : Parser Node} (hp : Offers allowed false p) : Offers allowed allowed p :=
    .mono hp fun _ hn => hn.loosen
  refine .here fun _ => .kind fun k => ?_
  split
  case h_7 => exact loosen (template_offers h)
  case h_8 => exact loosen (parenthesized_offers h)
  case h_9 => exact loosen h.block
  case h_10 =>
    exact .advance fun _ => .bind (.list h.expression) fun _ hparts => .close (.enclosing rfl rfl .nil hparts)
  case h_11 => exact .advance fun _ => .name fun _ => .close (.plainly rfl rfl .nil)
  case h_12 => exact nameOrStructLiteral_offers h
  case h_13 | h_14 => exact closure_offers h
  case h_15 =>
    exact .advance fun _ => .bind h.type fun _ htype => .expect fun _ => .bind (.list h.expression)
      fun _ hargs => .close (.enclosing rfl rfl (.one htype.loosen) (.cons htype.freely hargs))
  case h_16 =>
    exact .advance fun _ => .bind (optionalValue_heeds h _) fun _ hvalue => .close (.plainly rfl rfl hvalue)
  case h_17 => exact .advance fun _ => .bind h.expression fun _ hn => .close (.plainly rfl rfl (.one hn))
  case h_18 => exact .unexpected
  all_goals exact .advance fun _ => literal_offers

/-! ### Operators -/

omit h in
theorem memberName_offers {free : Bool} : Offers allowed free memberName := by
  refine .kind fun k => ?_
  split
  · exact .advance fun _ => .node (.plainly rfl rfl .nil)
  · exact .advance fun _ => .node (.plainly rfl rfl .nil)
  · exact .unexpected

theorem suffix?_heeds {target : Node} (htarget : target.Fit allowed) :
    Heeds allowed (fun found => ∀ shape ∈ found, shape.Fit allowed) (suffix? r target) := by
  have found {shape : Shape Node} (hshape : shape.Fit allowed) : ∀ other ∈ some shape, other.Fit allowed := by
    rintro other ⟨⟩
    exact hshape
  -- what is applied to arguments lies open, the arguments are closed in
  have applied {args : List Node} (hargs : AllFit true args) : AllFit true (target :: args) :=
    .cons htarget.freely hargs
  refine .kind fun k => ?_
  split
  · exact .advance fun _ => .pure (found (.plainly rfl rfl (.one htarget)))
  · exact .advance fun _ => .pure (found (.plainly rfl rfl (.one htarget)))
  · exact .advance fun _ => .bind memberName_offers fun _ hn =>
      .pure (found (.plainly rfl rfl (.cons htarget (.one hn))))
  · exact .advance fun _ => .bind memberName_offers fun _ hn =>
      .pure (found (.plainly rfl rfl (.cons htarget (.one hn))))
  · exact .advance fun _ => .bind (.list h.expression) fun _ hargs =>
      .pure (found (.enclosing rfl rfl (.one htarget) (applied hargs)))
  · refine .advance fun _ => .eat fun _ => .ite ?_ (.pure (found (.plainly rfl rfl (.one htarget))))
    exact .bind (.list h.expression) fun _ hargs => .pure (found (.enclosing rfl rfl (.one htarget) (applied hargs)))
  · exact .advance fun _ => .bind (.list h.expression) fun _ hargs =>
      .pure (found (.enclosing rfl rfl (.one htarget) (applied hargs)))
  · exact .advance fun _ => .bind h.type fun _ hn =>
      .pure (found (.plainly rfl rfl (.cons htarget (.one hn.loosen))))
  · exact .pure fun _ hshape => by cases hshape

theorem suffixed_offers : Offers allowed allowed (suffixed r) := by
  refine .here fun _ => .bind (primary_offers h) fun _ hn => .repeating hn fun target htarget => ?_
  refine .bind (suffix?_heeds h htarget) fun found hfound => ?_
  cases found with
  | some shape => exact .bind (.close (hfound shape rfl)) fun _ hn => .pure hn
  | none => exact .pure htarget

theorem prefixed_offers : Offers allowed allowed (prefixed r) :=
  .kind fun _ => .ite
    (.here fun _ => .advance fun _ => .bind h.unary fun _ hn => .close (.plainly rfl rfl (.one hn)))
    (suffixed_offers h)

theorem binary_offers (limit : Nat) : Offers allowed allowed (binary r limit) := by
  refine .here fun _ => .bind (prefixed_offers h) fun _ hn => .repeating hn fun lhs hlhs => ?_
  refine .kind fun op => .ite (.advance fun _ => .bind (h.operand _) fun _ hrhs => ?_) (.pure hlhs)
  exact .bind (.close (.plainly rfl rfl (.cons hlhs (.one hrhs)))) fun _ hn => .pure hn

theorem assignment_offers : Offers allowed allowed (assignment r) :=
  .here fun _ => .bind (binary_offers h _) fun _ htarget => .kind fun _ => .ite
    (.advance fun _ => .bind h.expression fun _ hvalue =>
      .close (.plainly rfl rfl (.cons htarget (.one hvalue))))
    (.pure htarget)

theorem middleBranch_heeds : Heeds allowed (fun branch => AllFit allowed branch.toList) (middleBranch r) :=
  .eat fun _ => .ite (.pure .nil) (.bind h.expression fun _ hn => .expect fun _ => .pure (.one hn))

theorem expressionRule_offers : Offers allowed allowed (expressionRule r) :=
  .here fun _ => .bind (assignment_offers h) fun _ hcondition => .kind fun _ => .ite
    (.advance fun _ => .bind (middleBranch_heeds h) fun _ htrue => .bind h.expression fun _ hfalse =>
      .close (.plainly rfl rfl (.cons hcondition (htrue.append (.one hfalse)))))
    (.pure hcondition)

end Rules

end BraceLang.Grammar
