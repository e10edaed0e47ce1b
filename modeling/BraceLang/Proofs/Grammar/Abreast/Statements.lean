import BraceLang.Proofs.Grammar.Abreast.Expressions
import BraceLang.Proofs.Grammar.Makes.Declarations
import BraceLang.Proofs.Grammar.Nesting

/-! Declarations and statements side by side, and with them all rules (`Rules.within_keep`). They stand between
    braces, so something is left behind them before the closer, and both sides see the same tokens. -/

namespace BraceLang

/-- A signature has as many parameters wherever they stand. -/
theorem Same.length_params {n n' : Node} (h : Same n n') : n.params.length = n'.params.length := by
  have kept (n : Node) : n.unplaced.params.length = n.params.length := by
    rw [Node.unplaced_eq]
    obtain ⟨id, range, resolved, shape⟩ := n
    cases shape
    case signature params result => exact List.length_map _
    all_goals rfl
  rw [← kept n, ← kept n']
  exact congrArg (List.length ∘ Node.params) h

namespace Grammar

variable {c d : Kind} {r : Rules} {m : Nat} {s t : State}

/-! ### Looking ahead -/

/-- Whether a field of a struct is ahead. -/
def atField (s : State) : Bool := s.kind == .kwPrivate || s.kind == .name && s.peek 1 == .colon

/-- Whether a `func` before tokens of these kinds starts a declaration. -/
def startsFunction (first second third : Kind) : Bool :=
  match first with
  | .lParen => second == .rParen && third == .lParen
  | _ => true

theorem atFunctionDecl_run (s : State) :
    atFunctionDecl s = .ok (startsFunction (s.peek 1) (s.peek 2) (s.peek 3)) s := by
  rw [atFunctionDecl, peek_bind]
  generalize s.peek 1 = k
  cases k <;> rfl

/-- The second parenthesis that opens is no closer, so the one between them stands before the closer. -/
theorem Abreast.startsFunction_eq {rest : List Lexeme} (h : Abreast c d rest s t) :
    startsFunction (t.peek 1) (t.peek 2) (t.peek 3) = startsFunction (s.peek 1) (s.peek 2) (s.peek 3) := by
  have told (first second third : Kind) : startsFunction first second third =
      (!(first == .lParen) || second == .rParen && third == .lParen) := by cases first <;> rfl
  rw [told, told, ← (h.peek 1).beq .lParen rfl, ← (h.peek 3).beq .lParen rfl]
  by_cases hthird : s.peek 3 = .lParen
  · rw [h.peek_eq (Nat.lt_of_succ_lt (h.lt_of_peek hthird rfl))]
  · rw [beq_false_of_ne hthird, Bool.and_false, Bool.and_false]

namespace Keeps

/-! ### Attributes and generic parameters -/

theorem attributes (h : r.Keep c d) (m : Nat) : Keeps c d (m + 1) (attributes r) :=
  fun _ _ => .repeating (.refl _) fun _ _ _ _ hattrs => .eat rfl rfl fun _ _ _ => .ite
    (fun _ => .expect rfl fun _ _ _ _ _ => .bind (.list rfl (h.expression _)) fun _ _ _ _ hmore =>
      .pure (congrArg ForInStep.yield (hattrs.append hmore)))
    fun _ => .pure (congrArg ForInStep.done hattrs)

theorem constraints (h : r.Keep c d) (m : Nat) : Keeps c d (m + 1) (constraints r) := by
  refine fun _ _ => .eat rfl rfl fun _ _ _ => .ite (fun _ => ?_) fun _ => .pure (.refl _)
  refine .bind (.repeating (.refl _) fun types types' s t htypes => ?_) fun _ _ _ _ htypes =>
    .pure htypes.toList
  exact .bind (h.type _ s t) fun _ _ _ _ htype => .eat rfl rfl fun _ _ _ => .ite
    (fun _ => .pure (congrArg ForInStep.yield (htypes.push htype)))
    fun _ => .pure (congrArg ForInStep.done (htypes.push htype))

theorem genericParameter (h : r.Keep c d) (m : Nat) : Keeps c d (m + 1) (genericParameter r) :=
  fun _ _ => .here (.expectName fun _ _ s t hname => .bind (constraints h m s t) fun _ _ _ _ htypes =>
    .close (congrArg₂ Shape.generic hname htypes))

theorem generics (h : r.Keep c d) (m : Nat) : Keeps c d (m + 1) (generics r) :=
  fun _ _ => .eat rfl rfl fun _ _ _ => .ite (fun _ => .list rfl (genericParameter h _)) fun _ => .pure (.refl _)

/-! ### Variables -/

theorem pattern {start start' : Range} :
    Follows c d (m + 1) s t (pattern start s) (pattern start' t) := by
  refine .eat rfl rfl fun _ _ _ => .ite (fun _ => ?_) fun _ => .expectName fun _ _ _ _ hname =>
    .pure (congrArg Pattern.single hname)
  refine .bind (.repeating (.refl #[]) fun names names' s t hnames => ?_) fun names names' s t hnames =>
    .expect rfl fun _ _ s t _ => ?_
  · refine .check rfl fun _ _ => .ite (fun _ => .pure (congrArg ForInStep.done hnames)) fun _ =>
      .expectName fun _ _ _ _ hname => .eat rfl rfl fun _ _ _ => .ite (fun _ => ?_) fun _ => ?_
    · exact .pure (congrArg ForInStep.yield (hnames.push hname))
    · exact .pure (congrArg ForInStep.done (hnames.push hname))
  · have hnames := hnames.toList
    revert hnames
    cases names.toList with
    | nil =>
      intro _
      show Follows c d (m + 1) s t ((finish start >>= _) s) _
      rw [finish_bind]
      exact .fail
    | cons first others =>
      cases names'.toList with
      | nil =>
        intro hnames
        cases hnames
      | cons first' others' =>
        intro hnames
        obtain ⟨hfirst, hothers⟩ := List.cons.inj hnames
        exact .pure (congrArg₂ Pattern.tuple hfirst hothers)

theorem variableKeyword (m : Nat) : Keeps c d (m + 1) variableKeyword :=
  fun _ _ => .eat rfl rfl fun _ _ _ => .ite (fun _ => .pure (.refl _)) fun _ =>
    .expect rfl fun _ _ _ _ _ => .pure (.refl _)

section Declarations
variable {attrs attrs' : List Node} {start start' : Range} (h : r.Keep c d) (hattrs : Same attrs attrs')
include h hattrs

theorem variableDecl (mods : Modifiers) (required : Bool) :
    Follows c d (m + 1) s t (variableDecl r attrs mods start required s)
      (variableDecl r attrs' mods start' required t) := by
  refine .bind (variableKeyword m s t) fun isConst isConst' s t hconst => ?_
  obtain rfl : isConst = isConst' := hconst
  refine .bind pattern fun _ _ _ _ hnames => .bind (.optionalAfter rfl rfl (h.type _)) fun _ _ _ _ htype =>
    .bind (.optionalAfter rfl rfl (h.expression _)) fun init init' s t hinit => ?_
  rw [← hinit.isNone_eq]
  exact .ite (fun _ => .unexpected) fun _ =>
    .close (congrArg₄ (Shape.var · mods isConst · · ·) hattrs hnames htype hinit)

end Declarations

/-! ### Functions -/

theorem overload (k : Kind) {start start' : Range} (name : String) :
    Follows c d (m + 1) s t (overload k start name s) (overload k start' name t) :=
  .finish fun _ _ => .pure (.refl _)

theorem functionName (m : Nat) : Keeps c d (m + 1) functionName := by
  refine fun s t => .kind fun k hk => .here ?_
  split
  · exact .expectName fun _ _ _ _ hname => .pure (congrArg (Prod.mk · none) hname)
  · exact .advance hk rfl fun _ _ _ _ _ => overload _ _
  · exact .advance hk rfl fun _ _ _ _ _ => .expect rfl fun _ _ _ _ _ => .eat rfl rfl fun _ _ _ => overload _ _
  · exact .advance hk rfl fun _ _ _ _ _ => .expect rfl fun _ _ _ _ _ => overload _ _
  · cases hname : k.operatorName? with
    | none => exact .unexpected
    | some name =>
      have hne : (k == .eof) = false := by
        refine beq_false_of_ne ?_
        rintro rfl
        cases hname
      exact .advance hk hne fun _ _ _ _ _ => overload _ _

theorem overloadName {name name' : Ident} {signature signature' : Node} (operator : Option Kind)
    (hname : Same name name') (hsignature : Same signature signature') :
    Same (overloadName name operator signature) (overloadName name' operator signature') := by
  cases operator with
  | none => exact hname
  | some op =>
    rw [overloadName_eq, overloadName_eq, hsignature.length_params]
    split
    · split
      · rfl
      · exact hname
    · exact hname

theorem functionBody (h : r.Keep c d) (m : Nat) : Keeps c d (m + 1) (functionBody r) := by
  refine fun s t => .check rfl fun _ _ => .ite
    (fun _ => .bind (h.block _ s t) fun _ _ _ _ hn => .pure (congrArg some hn))
    fun _ => .eat rfl rfl fun _ s t => .ite
      (fun _ => .bind (h.expression _ s t) fun _ _ _ _ hn => .pure (congrArg some hn))
      fun _ => .eat rfl rfl fun _ s t => .ite (fun _ => .pure (.refl _)) fun _ => .kind fun k _ => ?_
  split
  · exact .pure (.refl _)
  · exact .pure (.refl _)
  · exact .ite (fun _ => .pure (.refl _)) fun _ => .unexpected

theorem functionAsync (m : Nat) : Keeps c d (m + 1) functionAsync := by
  refine fun s t => .bind .takePendingAsync fun pending pending' s t hpending => ?_
  cases pending <;> cases pending'
  · exact .check rfl fun _ hkind => .ite
      (fun hb => .advance (hkind hb) rfl fun _ _ _ _ _ => .pure (.refl _)) fun _ => .pure (.refl _)
  · cases hpending
  · cases hpending
  · exact .pure (.refl _)

theorem functionGenerics (h : r.Keep c d) (operator : Option Kind) (m : Nat) :
    Keeps c d (m + 1) (functionGenerics r operator) :=
  fun s t => .ite (fun _ => generics h m s t) fun _ => .pure (.refl _)

section Declarations
variable {attrs attrs' : List Node} {start start' : Range} (h : r.Keep c d) (hattrs : Same attrs attrs')
include h hattrs

theorem functionDecl (mods : Modifiers) :
    Follows c d (m + 1) s t (functionDecl r attrs mods start s) (functionDecl r attrs' mods start' t) := by
  refine .bind (functionAsync m s t) fun isAsync isAsync' s t hasync => .expect rfl fun _ _ s t _ =>
    .bind (functionName m s t) fun (name, operator) (name', operator') s t hnamed => ?_
  obtain rfl : isAsync = isAsync' := hasync
  obtain ⟨hname, hoperator⟩ := Prod.ext_iff.mp hnamed
  obtain rfl : operator = operator' := by simpa [Ranged.unplaced] using hoperator
  refine .bind (functionGenerics h operator m s t) fun _ _ s t hparams => .bind (callSignature h _ s t)
    fun signature signature' s t hsignature => .bind (functionBody h m s t) fun _ _ _ _ hbody => .close ?_
  exact congrArg₅ (Shape.func · mods isAsync · operator · · ·) hattrs (overloadName operator hname hsignature)
    hparams hsignature hbody

/-! ### Types -/

omit hattrs in
theorem enumOption (m : Nat) : Keeps c d (m + 1) (enumOption r) :=
  fun s t => .here (.bind (attributes h m s t) fun _ _ _ _ hattrs => .expectName fun _ _ _ _ hname =>
    .bind (.optionalAfter rfl rfl (h.expression _)) fun _ _ _ _ hvalue =>
      .close (congrArg₃ Shape.enumOption hattrs hname hvalue))

theorem enumDecl (mods : Modifiers) :
    Follows c d (m + 1) s t (enumDecl r attrs mods start s) (enumDecl r attrs' mods start' t) := by
  refine .expect rfl fun _ _ _ _ _ => .expectName fun _ _ _ _ hname =>
    .bind (.optionalAfter rfl rfl (h.type _)) fun _ _ _ _ hbase => .expect rfl fun _ _ _ _ _ =>
      .bind (.list rfl (enumOption h _)) fun options options' s t hoptions => .finish fun range range' =>
        .bind ?_ fun _ _ _ _ _ => .node ?_
  · rw [requireOptions, requireOptions, ← hoptions.isEmpty_eq]
    exact .ite (fun _ => .report) fun _ => .pure (.refl _)
  · exact congrArg₄ (Shape.enum · mods · · ·) hattrs hname hbase hoptions

omit hattrs in
theorem unionMembers {first first' : Node} (hfirst : Same first first') :
    Follows c d (m + 1) s t (unionMembers r first s) (unionMembers r first' t) := by
  refine .bind (.repeating hfirst.singleton fun members members' s t hmembers => ?_) fun _ _ _ _ hmembers =>
    .pure hmembers.toList
  exact .eat rfl rfl fun _ s t => .ite
    (fun _ => .bind (h.type _ s t) fun _ _ _ _ hn => .pure (congrArg ForInStep.yield (hmembers.push hn)))
    fun _ => .pure (congrArg ForInStep.done hmembers)

theorem typeDecl (mods : Modifiers) :
    Follows c d (m + 1) s t (typeDecl r attrs mods start s) (typeDecl r attrs' mods start' t) := by
  refine .expect rfl fun _ _ _ _ _ => .expectName fun _ _ s t hname => .bind (generics h m s t)
    fun _ _ _ _ hparams => .expect rfl fun _ _ s t _ => .bind (h.type _ s t) fun _ _ _ _ hfirst =>
      .check rfl fun _ _ => .ite (fun _ => ?_) fun _ => ?_
  · exact .bind (unionMembers h hfirst) fun _ _ _ _ hmembers =>
      .close (congrArg₄ (Shape.union · mods · · ·) hattrs hname hparams hmembers)
  · exact .close (congrArg₄ (Shape.typeAlias · mods · · ·) hattrs hname hparams hfirst)

omit h hattrs in
theorem skipSeparators (m : Nat) : Keeps c d (m + 1) skipSeparators :=
  fun _ _ => .repeating (.refl _) fun _ _ _ _ _ => .eat rfl rfl fun _ _ _ => .ite (fun _ => .pure (.refl _))
    fun _ => .eat rfl rfl fun _ _ _ => .ite (fun _ => .pure (.refl _)) fun _ => .pure (.refl _)

omit hattrs in
theorem structMemberStep {members members' : Array Node} (hmembers : Same members members') :
    Follows c d (m + 1) s t (structMemberStep r members s) (structMemberStep r members' t) := by
  refine .kind fun k _ => ?_
  split
  · exact .pure (congrArg ForInStep.done hmembers)
  · exact .pure (congrArg ForInStep.done hmembers)
  · exact .bind (h.structMember m s t) fun _ _ s t hn => .bind (skipSeparators m s t) fun _ _ _ _ _ =>
      .pure (congrArg ForInStep.yield (hmembers.push hn))

theorem structDecl (mods : Modifiers) :
    Follows c d (m + 1) s t (structDecl r attrs mods start s) (structDecl r attrs' mods start' t) := by
  refine .expect rfl fun _ _ _ _ _ => .expectName fun _ _ s t hname => .bind (generics h m s t)
    fun _ _ _ _ hparams => .expect rfl fun _ _ _ _ _ => .bind (.withStructLiterals fun _ _ =>
      .repeating (.refl _) fun _ _ _ _ hmembers => structMemberStep h hmembers) fun _ _ _ _ hmembers => ?_
  exact .expect rfl fun _ _ _ _ _ =>
    .close (congrArg₄ (Shape.struct · mods · · ·) hattrs hname hparams hmembers.toList)

/-! ### Any declaration -/

omit h hattrs in
theorem modifiers (m : Nat) : Keeps c d (m + 1) modifiers := by
  refine fun _ _ => .repeating (.refl _) fun mods mods' s t hmods => .kind fun k hk => ?_
  obtain rfl : mods = mods' := hmods
  split
  · exact .advance hk rfl fun _ _ _ _ _ => .pure (.refl _)
  · exact .advance hk rfl fun _ _ _ _ _ => .pure (.refl _)
  · exact .pure (.refl _)

theorem declarationAfter :
    Follows c d (m + 1) s t (declarationAfter r attrs start s) (declarationAfter r attrs' start' t) := by
  refine .bind (modifiers m s t) fun mods mods' s t hmods => .kind fun k hk => ?_
  obtain rfl : mods = mods' := hmods
  split
  case h_1 => exact structDecl h hattrs mods
  case h_2 => exact enumDecl h hattrs mods
  case h_3 => exact typeDecl h hattrs mods
  case h_4 | h_5 => exact variableDecl h hattrs mods false
  case h_6 | h_7 => exact functionDecl h hattrs mods
  case h_8 => exact .unexpected

omit hattrs in
theorem declaration (m : Nat) : Keeps c d (m + 1) (declaration r) :=
  fun s t => .here (.bind (attributes h m s t) fun _ _ _ _ hattrs => declarationAfter h hattrs)

theorem structField :
    Follows c d (m + 1) s t (structField r attrs start s) (structField r attrs' start' t) :=
  .eat rfl rfl fun isPrivate _ _ => .expectName fun _ _ _ _ hname => .expect rfl fun _ _ s t _ =>
    .bind (h.type _ s t) fun _ _ _ _ htype => .bind (.optionalAfter rfl rfl (h.expression _))
      fun _ _ _ _ hdefault => .close (congrArg₄ (Shape.field · isPrivate · · ·) hattrs hname htype hdefault)

/-- A member takes a token, so two are left before the closer where it is told what it is. -/
theorem fieldOrDeclaration : Follows c d (m + 1) s t
    ((if atField s = true then Grammar.structField r attrs start else Grammar.declarationAfter r attrs start) s)
    ((if atField t = true then Grammar.structField r attrs' start' else
      Grammar.declarationAfter r attrs' start') t) := by
  refine .choose (fun rest n s' hs hrun hbefore => ?_) (fun _ => structField h hattrs) fun _ =>
    declarationAfter h hattrs
  have htakes : s'.remaining + 1 ≤ s.remaining := by
    rcases ite_eq_ok.mp hrun with ⟨-, hrun⟩ | ⟨-, hrun⟩
    · obtain ⟨ps, hps, -⟩ := structField_completes h.read hrun
      exact hps.takes
    · obtain ⟨ps, hps, -⟩ := declarationAfter_completes h.read hrun
      exact hps.takes
  have hlong : 1 < rest.length := by
    have hroom := hbefore.room
    have hremaining := hs.remaining
    omega
  rw [atField, atField, hs.peek_eq hlong, hs.kind_eq (List.ne_nil_of_length_pos (Nat.zero_lt_of_lt hlong))]

omit hattrs in
theorem structMemberRule (m : Nat) : Keeps c d (m + 1) (structMemberRule r) :=
  fun s t => .here (.bind (attributes h m s t) fun _ _ _ _ hattrs => fieldOrDeclaration h hattrs)

end Declarations

/-! ### Blocks -/

/-- A statement that cannot be read is reported, and then nothing is claimed. -/
theorem statementStep (h : r.Keep c d) {items items' : Array Node} (hitems : Same items items') :
    Follows c d (m + 1) s t (statementStep r.statement true items s) (statementStep r.statement true items' t) := by
  have hmoves {x : ForInStep (Array Node)} {s' : State}
      (hrun : Grammar.statementStep r.statement true items s = .ok x s') : Moves s s' := by
    obtain ⟨ps, hps, -⟩ := statementStep_reads h.read.statement h.read.moves true hrun
    exact hps.moves
  refine ⟨fun _ _ => hmoves, fun rest hs x s' hrun hbefore => ?_⟩
  have hrest := (hbefore.of_moves (hmoves hrun)).ne_nil hs
  rw [Grammar.statementStep, check_bind, check_bind] at hrun ⊢
  rw [hs.kind_eq hrest]
  rcases ite_eq_ok.mp hrun with ⟨hend, hrun⟩ | ⟨hgo, hrun⟩
  · obtain ⟨rfl, rfl⟩ := pure_eq_ok.mp hrun
    rw [if_pos hend]
    exact ⟨rest, _, t, rfl, congrArg ForInStep.done hitems, hs⟩
  rw [get_bind] at hrun
  rw [if_neg hgo, get_bind]
  cases hitem : r.statement s with
  | ok item u =>
    rw [bind_of_ok (show attempt r.statement s = .ok (.ok item) u by rw [attempt, hitem])] at hrun
    obtain ⟨rfl, rfl⟩ := pure_eq_ok.mp hrun
    obtain ⟨rest', item', u', hitem', hsame, hu⟩ := (h.statement m s t).leads rest hs item u hitem hbefore
    rw [bind_of_ok (show attempt r.statement t = .ok (.ok item') u' by rw [attempt, hitem'])]
    exact ⟨rest', _, u', rfl, congrArg ForInStep.yield (hitems.push hsame), hu⟩
  | error err u =>
    rw [bind_of_ok (show attempt r.statement s = .ok (.error err) u by rw [attempt, hitem])] at hrun
    simp only [report_bind, bind_eq_ok, pure_eq_ok] at hrun
    obtain ⟨_, _, hsync, -, rfl⟩ := hrun
    have hsynced := Agrees.moves (Agrees.synchronize s.remaining true) hsync
    exact (hbefore.of_moves hsynced).not_reported.elim

theorem blockRule (h : r.Keep c d) (m : Nat) : Keeps c d m (blockRule r) := by
  refine fun _ _ => .here (.expect rfl fun _ _ _ _ _ => .upTo (.withStructLiterals fun _ _ => ?_) rfl
    fun _ _ _ _ _ _ hbody => .close (congrArg Shape.block hbody))
  exact .bind (.repeating (.refl _) fun _ _ _ _ hitems => statementStep h hitems) fun _ _ _ _ hitems =>
    .pure hitems.toList

/-! ### Statements -/

theorem condition (h : r.Keep c d) (m : Nat) : Keeps c d (m + 1) (condition r) := by
  refine fun s t => .kind fun k hk => .ite (fun _ => ?_) fun _ => .check rfl fun b hb => .peek fun k k' hk => ?_
  · exact .here (.withStructLiterals fun _ _ => variableDecl h (.refl _) _ true)
  have hstarts := hk.congr (Kind.forall_closes (P := fun k => startsVariable k = false).mpr
    ⟨rfl, rfl, rfl, rfl, rfl, rfl, rfl⟩)
  rw [← hstarts]
  refine .ite (fun hparen => ?_) fun _ => .withStructLiterals (h.expression _)
  exact .advance (hb (Bool.and_eq_true_iff.mp hparen).1) rfl fun _ _ _ _ _ => .here (.bind
    (.withStructLiterals fun _ _ => variableDecl h (.refl _) _ true) fun _ _ _ _ hn =>
      .expect rfl fun _ _ _ _ _ => .pure hn)

theorem elseBranch (h : r.Keep c d) (m : Nat) : Keeps c d (m + 1) (elseBranch r) :=
  fun _ _ => .eat rfl rfl fun _ s t => .ite
    (fun _ => .check rfl fun _ _ => .ite
      (fun _ => .bind (h.elseIf m s t) fun _ _ _ _ hn => .pure (congrArg some hn))
      fun _ => .bind (h.block _ s t) fun _ _ _ _ hn => .pure (congrArg some hn))
    fun _ => .pure (.refl _)

theorem ifRule (h : r.Keep c d) (m : Nat) : Keeps c d (m + 1) (ifRule r) :=
  fun _ _ => .here (.expect rfl fun _ _ s t _ => .bind (condition h m s t) fun _ _ s t hcond =>
    .bind (h.block _ s t) fun _ _ s t hthen => .bind (elseBranch h m s t) fun _ _ _ _ helse =>
      .close (congrArg₃ Shape.ifElse hcond hthen helse))

theorem whileRule (h : r.Keep c d) (hkind : s.kind = .kwWhile) :
    Follows c d (m + 1) s t (whileRule r s) (whileRule r t) :=
  .here (.advance hkind rfl fun _ _ s t _ => .bind (condition h m s t) fun _ _ s t hcond =>
    .bind (h.block _ s t) fun _ _ _ _ hbody => .close (congrArg₂ Shape.whileLoop hcond hbody))

theorem headerPart (h : r.Keep c d) {stop : Kind} (hstop : (stop == .eof) = false) (m : Nat) :
    Keeps c d (m + 1) (headerPart r stop) :=
  fun s t => .bind (optionalValue h _ m s t) fun _ _ _ _ hpart => .expect hstop fun _ _ _ _ _ => .pure hpart

theorem headerInit (h : r.Keep c d) (m : Nat) : Keeps c d (m + 1) (headerInit r) :=
  fun s t => .kind fun _ _ => .ite
    (fun _ => .here (.bind (variableDecl h (.refl _) _ false) fun _ _ _ _ hn =>
      .expect rfl fun _ _ _ _ _ => .pure (congrArg some hn)))
    fun _ => headerPart h rfl m s t

theorem forRule (h : r.Keep c d) (m : Nat) : Keeps c d (m + 1) (forRule r) :=
  fun _ _ => .here (.expect rfl fun _ _ _ _ _ => .expect rfl fun _ _ s t _ =>
    .bind (headerInit h m s t) fun _ _ s t hinit => .bind (headerPart h rfl m s t) fun _ _ s t hcond =>
      .bind (headerPart h rfl m s t) fun _ _ s t hstep => .bind (h.block _ s t) fun _ _ _ _ hbody =>
        .close (congrArg₄ Shape.forLoop hinit hcond hstep hbody))

theorem expressionStatement (h : r.Keep c d) {start start' : Range} :
    Follows c d (m + 1) s t (expressionStatement r start s) (expressionStatement r start' t) :=
  .bind (h.expression _ s t) fun _ _ _ _ hn => .close (congrArg Shape.exprStmt hn)

/-- Three tokens behind a `func` tell whether it starts a declaration. -/
theorem atFunctionDecl {f f' : Bool → Parser Node} (h : ∀ b, Follows c d (m + 1) s t (f b s) (f' b t)) :
    Follows c d (m + 1) s t ((atFunctionDecl >>= f) s) ((atFunctionDecl >>= f') t) := by
  rw [bind_of_ok (atFunctionDecl_run s), bind_of_ok (atFunctionDecl_run t)]
  refine ⟨(h _).moves, fun rest hs => ?_⟩
  rw [hs.startsFunction_eq]
  exact (h _).leads rest hs

theorem asyncStatement (h : r.Keep c d) (hkind : s.kind = .kwAsync) :
    Follows c d (m + 1) s t (asyncStatement r s) (asyncStatement r t) :=
  .here (.advance hkind rfl fun _ _ _ _ _ => .hold rfl fun _ _ => atFunctionDecl fun _ => .ite
    (fun _ => declarationAfter h (.refl _)) fun _ => expressionStatement h)

theorem statementBody (h : r.Keep c d) (m : Nat) : Keeps c d (m + 1) (statementBody r) := by
  refine fun s t => .here (.kind fun k hk => ?_)
  split
  case h_9 =>
    exact atFunctionDecl fun _ => .ite (fun _ => declaration h m s t) fun _ => expressionStatement h
  case h_10 =>
    refine .peek fun k k' hfunc => ?_
    rw [← hfunc.beq .kwFunc rfl]
    exact .ite (fun _ => asyncStatement h hk) fun _ => expressionStatement h
  case h_11 => exact h.block _ s t
  case h_12 => exact ifRule h m s t
  case h_13 => exact whileRule h hk
  case h_14 => exact forRule h m s t
  case h_15 =>
    exact .advance hk rfl fun _ _ s t _ => .bind (h.statement m s t) fun _ _ _ _ hn =>
      .close (congrArg Shape.deferred hn)
  case h_16 =>
    exact .advance hk rfl fun _ _ s t _ => .bind (optionalValue h _ m s t) fun _ _ _ _ hvalue =>
      .close (congrArg Shape.returned hvalue)
  case h_17 | h_18 => exact .advance hk rfl fun _ _ _ _ _ => .close (.refl _)
  case h_19 => exact expressionStatement h
  all_goals exact declaration h m s t

theorem statementRule (h : r.Keep c d) (m : Nat) : Keeps c d (m + 1) (statementRule r) :=
  fun s t => .bind (statementBody h m s t) fun _ _ _ _ hn => .eat rfl rfl fun _ _ _ => .pure hn

end Keeps

/-- The rules at every level of nesting do the same on both sides. -/
theorem Rules.within_keep (c d : Kind) (n : Nat) : (within n).Keep c d := by
  induction n with
  | zero =>
    exact {
      expression := fun _ => .tooDeep
      type := fun _ => .tooDeep
      block := fun _ => .tooDeep
      operand := fun _ _ => .tooDeep
      unary := fun _ => .tooDeep
      statement := fun _ => .tooDeep
      structMember := fun _ => .tooDeep
      elseIf := fun _ => .tooDeep
      read := within_read 0 }
  | succ n ih =>
    exact {
      expression := fun m => .nested (.expressionRule ih m)
      type := fun m => .nested (.typeRule ih m)
      block := fun m => .nested (.blockRule ih m)
      operand := fun limit m => .nested (.binary ih limit m)
      unary := fun m => .nested (.prefixed ih m)
      statement := fun m => .nested (.statementRule ih m)
      structMember := fun m => .nested (.structMemberRule ih m)
      elseIf := fun m => .nested (.ifRule ih m)
      read := within_read (n + 1) }

end Grammar

end BraceLang
