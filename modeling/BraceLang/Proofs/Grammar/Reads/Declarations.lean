import BraceLang.Proofs.Grammar.Reads.Expressions

/-! What the parsers of declarations read. -/

namespace BraceLang.Grammar

variable {r : Rules} {s t : State} {n : Node}

/-! ### Attributes and generic parameters -/

theorem attributeStep_reads (h : r.Read) :
    StepReads (fun attrs => attrs.map .part) (attributeStep r) := by
  intro attrs s step t e
  rcases eat_ite_eq_ok.mp e with ⟨hat, e⟩ | ⟨-, e⟩
  · simp only [bind_eq_ok, expect_eq_ok, pure_eq_ok] at e
    obtain ⟨_, _, ⟨hbracket, -, rfl⟩, more, u, hmore, rfl, rfl⟩ := e
    have hread := ((Reads.mark hat rfl).trans (.mark hbracket rfl)).trans
      (list_reads h.expression rfl hmore)
    exact hread.again (.of_eq List.map_append.symm)
  · obtain ⟨rfl, rfl⟩ := pure_eq_ok.mp e
    exact .idle

theorem attributes_reads (h : r.Read) {attrs : List Node} (e : attributes r s = .ok attrs t) :
    Reads s 0 (attrs.map .part) t := by
  obtain ⟨ps, hps, hgroup⟩ := (attributeStep_reads h).repeating e
  exact hps.regroup hgroup

theorem barStep_reads (h : r.Read) : StepReads collected (barStep r) := by
  intro types s step t e
  obtain ⟨n, u, hn, e⟩ := bind_eq_ok.mp e
  rcases eat_ite_eq_ok.mp e with ⟨hbar, e⟩ | ⟨-, e⟩
  · obtain ⟨rfl, rfl⟩ := pure_eq_ok.mp e
    exact ((h.type hn).trans (.mark hbar rfl)).again (.of_eq collected_push)
  · obtain ⟨rfl, rfl⟩ := pure_eq_ok.mp e
    exact (h.type hn).last (.of_eq collected_push)

theorem constraints_reads (h : r.Read) {types : List Node} (e : constraints r s = .ok types t) :
    Reads s 0 (types.map .part) t := by
  rcases eat_ite_eq_ok.mp e with ⟨hcolon, e⟩ | ⟨-, e⟩
  · obtain ⟨items, u, hitems, e⟩ := bind_eq_ok.mp e
    obtain ⟨rfl, rfl⟩ := pure_eq_ok.mp e
    obtain ⟨ps, hps, hgroup⟩ := (barStep_reads h).repeating hitems
    exact ((Reads.mark hcolon rfl).trans (hps.regroup hgroup)).weaken (Nat.zero_le _)
  · obtain ⟨rfl, rfl⟩ := pure_eq_ok.mp e
    exact .refl _

theorem genericParameter_reads (h : r.Read) : ReadsNode (genericParameter r) := by
  intro s n t e
  simp only [genericParameter, here_bind, bind_eq_ok, expectName_eq_ok, close_eq_ok] at e
  obtain ⟨_, _, ⟨hname, rfl, rfl⟩, types, u, htypes, rfl, rfl⟩ := e
  exact ((Reads.name hname).trans (constraints_reads h htypes)).node (by decide) rfl rfl

theorem generics_reads (h : r.Read) {params : List Node} (e : generics r s = .ok params t) :
    Reads s 0 (params.map .part) t := by
  rcases eat_ite_eq_ok.mp e with ⟨hbracket, e⟩ | ⟨-, e⟩
  · exact ((Reads.mark hbracket rfl).trans
      (list_reads (genericParameter_reads h) rfl e)).weaken (Nat.zero_le _)
  · obtain ⟨rfl, rfl⟩ := pure_eq_ok.mp e
    exact .refl _

/-! ### After attributes

A declaration is parsed after the attributes that belong to it. -/

/-- What is read from one place to the other completes a node that begins with these attributes. -/
def Completes (attrs : List Node) (s : State) (n : Node) (t : State) : Prop :=
  ∃ ps, Reads s 1 ps t ∧ Regroups (attrs.map .part ++ ps) [.part n]

theorem Reads.completes {attrs : List Node} {k : Nat} {ps : List (Piece Node)} {id : NodeId}
    {range : Range} {shape : Shape Node} (h : Reads s k ps t) (hk : 1 ≤ k)
    (hps : attrs.map .part ++ ps = shape.pieces)
    (hm : shape.selectsProperly = true) :
    Completes attrs s ⟨id, range, none, shape⟩ t.identified :=
  ⟨ps, (h.weaken hk).identified, .node hps hm⟩

theorem Completes.reads {attrs : List Node} {u : State} (h : Completes attrs t n u)
    (hattrs : Reads s 0 (attrs.map .part) t) : Reads s 1 [.part n] u := by
  obtain ⟨ps, hps, hgroup⟩ := h
  exact (hattrs.trans hps).regroup hgroup

/-! ### Variables -/

theorem patternStep_reads : StepReads collectedNames patternStep := by
  intro names s step t e
  rcases check_ite_eq_ok.mp e with ⟨-, e⟩ | ⟨-, e⟩
  · obtain ⟨rfl, rfl⟩ := pure_eq_ok.mp e
    exact .idle
  · obtain ⟨_, _, hrun, e⟩ := bind_eq_ok.mp e
    obtain ⟨hname, rfl, rfl⟩ := expectName_eq_ok.mp hrun
    rcases eat_ite_eq_ok.mp e with ⟨hcomma, e⟩ | ⟨-, e⟩
    · obtain ⟨rfl, rfl⟩ := pure_eq_ok.mp e
      refine ((Reads.name hname).trans (.mark hcomma rfl)).again (.of_eq ?_)
      simp [collectedNames, Ident.piece]
    · obtain ⟨rfl, rfl⟩ := pure_eq_ok.mp e
      refine (Reads.name hname).last (.of_eq ?_)
      simp [collectedNames, Ident.piece]

theorem pattern_reads {start : Range} {names : Pattern} (e : pattern start s = .ok names t) :
    Reads s 1 (names.names.map Ident.piece) t := by
  rcases eat_ite_eq_ok.mp e with ⟨hparen, e⟩ | ⟨-, e⟩
  · simp only [bind_eq_ok, expect_eq_ok] at e
    obtain ⟨collected, u, hcollected, _, _, ⟨hclose, -, rfl⟩, e⟩ := e
    obtain ⟨ps, hps, hgroup⟩ := patternStep_reads.repeating hcollected
    have hread := (Reads.mark hparen rfl).trans ((hps.regroup hgroup).trans (.mark hclose rfl))
    cases hnames : collected.toList with
    | cons first others =>
      rw [hnames] at e
      obtain ⟨rfl, rfl⟩ := pure_eq_ok.mp e
      rw [collectedNames, hnames, List.append_nil] at hread
      exact hread.weaken (by decide)
    | nil =>
      rw [hnames] at e
      obtain ⟨_, _, _, e⟩ := bind_eq_ok.mp e
      cases e
  · simp only [bind_eq_ok, expectName_eq_ok, pure_eq_ok] at e
    obtain ⟨_, _, ⟨hname, rfl, rfl⟩, rfl, rfl⟩ := e
    exact .name hname

theorem variableKeyword_reads {isConst : Bool} (e : variableKeyword s = .ok isConst t) :
    Reads s 1 [] t := by
  rcases eat_ite_eq_ok.mp e with ⟨hconst, e⟩ | ⟨-, e⟩
  · obtain ⟨rfl, rfl⟩ := pure_eq_ok.mp e
    exact .mark hconst rfl
  · simp only [bind_eq_ok, expect_eq_ok, pure_eq_ok] at e
    obtain ⟨_, _, ⟨hvar, -, rfl⟩, rfl, rfl⟩ := e
    exact .mark hvar rfl

theorem variableDecl_completes (h : r.Read) {attrs : List Node} {mods : Modifiers} {start : Range}
    {required : Bool} (e : variableDecl r attrs mods start required s = .ok n t) :
    Completes attrs s n t := by
  simp only [variableDecl, bind_eq_ok] at e
  obtain ⟨isConst, u, hconst, names, v, hnames, type, w, htype, init, x, hinit, e⟩ := e
  rcases ite_eq_ok.mp e with ⟨-, e⟩ | ⟨-, e⟩
  · exact (unexpected_eq_ok.mp e).elim
  · obtain ⟨rfl, rfl⟩ := close_eq_ok.mp e
    have hread := ((variableKeyword_reads hconst).trans (pattern_reads hnames)).trans
      ((optionalAfter_reads h.type rfl htype).trans (optionalAfter_reads h.expression rfl hinit))
    exact hread.completes (by decide) (by simp [Shape.pieces]) rfl

/-! ### Functions -/

/-- The words of the name of a function: none if it overloads an operator. -/
def spelled (name : Ident) (operator : Option Kind) : List (Piece Node) :=
  if operator.isSome then [] else [name.piece]

theorem overload_eq_ok {k : Kind} {start : Range} {text : String} {name : Ident} {operator : Option Kind}
    (e : overload k start text s = .ok (name, operator) t) : operator = some k ∧ s = t := by
  simp only [overload, finish_bind, pure_eq_ok, Prod.mk.injEq] at e
  exact ⟨e.1.2.symm, e.2⟩

theorem isMark_of_operatorName? : ∀ k : Kind, k.operatorName?.isSome = true → k.isMark = true := by
  intro k
  cases k <;> decide

theorem functionName_reads {name : Ident} {operator : Option Kind}
    (e : functionName s = .ok (name, operator) t) : Reads s 1 (spelled name operator) t := by
  rw [functionName, kind_bind, here_bind] at e
  generalize hk : s.kind = k at e
  split at e
  case h_1 =>
    simp only [bind_eq_ok, expectName_eq_ok, pure_eq_ok, Prod.mk.injEq] at e
    obtain ⟨_, _, ⟨hname, rfl, rfl⟩, ⟨rfl, rfl⟩, rfl⟩ := e
    exact .name hname
  case h_2 =>
    rw [advance_bind] at e
    obtain ⟨rfl, rfl⟩ := overload_eq_ok e
    exact .mark hk rfl
  case h_3 =>
    simp only [advance_bind, bind_eq_ok, expect_eq_ok] at e
    obtain ⟨_, _, ⟨hclose, -, rfl⟩, stores, u, hstores, e⟩ := e
    obtain ⟨rfl, rfl⟩ := overload_eq_ok e
    exact ((Reads.mark hk rfl).trans ((Reads.mark hclose rfl).trans (.eat rfl hstores))).weaken
      (by decide)
  case h_4 =>
    simp only [advance_bind, bind_eq_ok, expect_eq_ok] at e
    obtain ⟨_, _, ⟨hclose, -, rfl⟩, e⟩ := e
    obtain ⟨rfl, rfl⟩ := overload_eq_ok e
    exact ((Reads.mark hk rfl).trans (.mark hclose rfl)).weaken (by decide)
  case h_5 =>
    cases hname : k.operatorName? with
    | some text =>
      simp only [hname, advance_bind] at e
      obtain ⟨rfl, rfl⟩ := overload_eq_ok e
      exact .mark hk (isMark_of_operatorName? k (by rw [hname]; rfl))
    | none =>
      rw [hname] at e
      exact (unexpected_eq_ok.mp e).elim

theorem functionBody_reads (h : r.Read) {body : Option Node} (e : functionBody r s = .ok body t) :
    Reads s 0 (body.toList.map .part) t := by
  rcases check_ite_eq_ok.mp e with ⟨-, e⟩ | ⟨-, e⟩
  · obtain ⟨n, u, hn, e⟩ := bind_eq_ok.mp e
    obtain ⟨rfl, rfl⟩ := pure_eq_ok.mp e
    exact (h.block hn).weaken (Nat.zero_le _)
  rcases eat_ite_eq_ok.mp e with ⟨harrow, e⟩ | ⟨-, e⟩
  · obtain ⟨n, u, hn, e⟩ := bind_eq_ok.mp e
    obtain ⟨rfl, rfl⟩ := pure_eq_ok.mp e
    exact ((Reads.mark harrow rfl).trans (h.expression hn)).weaken (Nat.zero_le _)
  rcases eat_ite_eq_ok.mp e with ⟨hsemi, e⟩ | ⟨-, e⟩
  · obtain ⟨rfl, rfl⟩ := pure_eq_ok.mp e
    exact (Reads.mark hsemi rfl).weaken (Nat.zero_le _)
  rw [kind_bind] at e
  generalize s.kind = k at e
  split at e
  · obtain ⟨rfl, rfl⟩ := pure_eq_ok.mp e
    exact .refl _
  · obtain ⟨rfl, rfl⟩ := pure_eq_ok.mp e
    exact .refl _
  · rcases ite_eq_ok.mp e with ⟨-, e⟩ | ⟨-, e⟩
    · obtain ⟨rfl, rfl⟩ := pure_eq_ok.mp e
      exact .refl _
    · exact (unexpected_eq_ok.mp e).elim

theorem functionAsync_reads {isAsync : Bool} (e : functionAsync s = .ok isAsync t) :
    Reads s 0 [] t := by
  obtain ⟨pending, u, hpending, e⟩ := bind_eq_ok.mp e
  have hread := takePendingAsync_reads hpending
  cases pending with
  | some range =>
    obtain ⟨-, rfl⟩ := pure_eq_ok.mp e
    exact hread
  | none => exact hread.trans (.eat rfl e)

theorem functionGenerics_reads (h : r.Read) {operator : Option Kind} {params : List Node}
    (e : functionGenerics r operator s = .ok params t) : Reads s 0 (params.map .part) t := by
  rcases ite_eq_ok.mp e with ⟨-, e⟩ | ⟨-, e⟩
  · exact generics_reads h e
  · obtain ⟨rfl, rfl⟩ := pure_eq_ok.mp e
    exact .refl _

/-- The name an overload gets from its parameters is not written either. -/
theorem spelled_overloadName (name : Ident) (operator : Option Kind) (signature : Node) :
    spelled (overloadName name operator signature) operator = spelled name operator := by
  cases operator with
  | some op => rfl
  | none => rfl

theorem functionDecl_completes (h : r.Read) {attrs : List Node} {mods : Modifiers} {start : Range}
    (e : functionDecl r attrs mods start s = .ok n t) : Completes attrs s n t := by
  simp only [functionDecl, bind_eq_ok, expect_eq_ok, close_eq_ok] at e
  obtain ⟨isAsync, u, hasync, _, _, ⟨hfunc, -, rfl⟩, ⟨name, operator⟩, v, hname, params, w, hparams,
    sig, x, hsig, body, y, hbody, rfl, rfl⟩ := e
  have hread := ((functionAsync_reads hasync).trans (.mark hfunc rfl)).trans
    ((functionName_reads hname).trans ((functionGenerics_reads h hparams).trans
      ((callSignature_reads h hsig).trans (functionBody_reads h hbody))))
  refine hread.completes (by decide) ?_ rfl
  rw [← spelled_overloadName name operator sig]
  simp [Shape.pieces, spelled]

/-! ### Types -/

theorem enumOption_reads (h : r.Read) : ReadsNode (enumOption r) := by
  intro s n t e
  simp only [enumOption, here_bind, bind_eq_ok, expectName_eq_ok, close_eq_ok] at e
  obtain ⟨attrs, u, hattrs, _, _, ⟨hname, rfl, rfl⟩, value, v, hvalue, rfl, rfl⟩ := e
  have hread := (attributes_reads h hattrs).trans
    ((Reads.name hname).trans (optionalAfter_reads h.expression rfl hvalue))
  exact hread.node (by decide) rfl rfl

theorem requireOptions_reads {options : List Node} {range : Range}
    (e : requireOptions options range s = .ok () t) : Reads s 0 [] t := by
  rcases ite_eq_ok.mp e with ⟨-, e⟩ | ⟨-, e⟩
  · cases e
    exact ⟨.report s _, Nat.le_refl _, fun _ _ => rfl, fun _ h => absurd h List.not_mem_nil⟩
  · obtain ⟨-, rfl⟩ := pure_eq_ok.mp e
    exact .refl _

theorem enumDecl_completes (h : r.Read) {attrs : List Node} {mods : Modifiers} {start : Range}
    (e : enumDecl r attrs mods start s = .ok n t) : Completes attrs s n t := by
  simp only [enumDecl, bind_eq_ok, expect_eq_ok, expectName_eq_ok, finish_bind, node_eq_ok] at e
  obtain ⟨_, _, ⟨henum, -, rfl⟩, _, _, ⟨hname, rfl, rfl⟩, base, u, hbase, _, _, ⟨hopen, -, rfl⟩,
    options, v, hoptions, _, w, hrequire, rfl, rfl⟩ := e
  have hread := ((Reads.mark henum rfl).trans (.name hname)).trans
    ((optionalAfter_reads h.type rfl hbase).trans ((Reads.mark hopen rfl).trans
      ((list_reads (enumOption_reads h) rfl hoptions).trans (requireOptions_reads hrequire))))
  exact hread.completes (by decide) (by simp [Shape.pieces, Ident.piece]) rfl

theorem unionStep_reads (h : r.Read) : StepReads collected (unionStep r) := by
  intro members s step t e
  rcases eat_ite_eq_ok.mp e with ⟨hbar, e⟩ | ⟨-, e⟩
  · obtain ⟨n, u, hn, e⟩ := bind_eq_ok.mp e
    obtain ⟨rfl, rfl⟩ := pure_eq_ok.mp e
    exact ((Reads.mark hbar rfl).trans (h.type hn)).again (.of_eq collected_push)
  · obtain ⟨rfl, rfl⟩ := pure_eq_ok.mp e
    exact .idle

theorem unionMembers_reads (h : r.Read) {first : Node} {members : List Node}
    (e : unionMembers r first s = .ok members t) :
    ∃ ps, Reads s 0 ps t ∧ Regroups (.part first :: ps) (members.map .part) := by
  obtain ⟨items, u, hitems, e⟩ := bind_eq_ok.mp e
  obtain ⟨rfl, rfl⟩ := pure_eq_ok.mp e
  exact (unionStep_reads h).repeating hitems

theorem typeDecl_completes (h : r.Read) {attrs : List Node} {mods : Modifiers} {start : Range}
    (e : typeDecl r attrs mods start s = .ok n t) : Completes attrs s n t := by
  simp only [typeDecl, bind_eq_ok, expect_eq_ok, expectName_eq_ok] at e
  obtain ⟨_, _, ⟨hkeyword, -, rfl⟩, _, _, ⟨hname, rfl, rfl⟩, params, u, hparams, _, _, ⟨heq, -, rfl⟩,
    first, v, hfirst, e⟩ := e
  have hhead := ((Reads.mark hkeyword rfl).trans (.name hname)).trans
    ((generics_reads h hparams).trans (.mark heq rfl))
  rcases check_ite_eq_ok.mp (bind_eq_ok.mpr e) with ⟨-, e⟩ | ⟨-, e⟩
  · simp only [bind_eq_ok, close_eq_ok] at e
    obtain ⟨members, w, hmembers, rfl, rfl⟩ := e
    obtain ⟨ps, hps, hgroup⟩ := unionMembers_reads h hmembers
    have hread := hhead.trans (((h.type hfirst).trans hps).regroup hgroup)
    exact hread.completes (by decide) (by simp [Shape.pieces, Ident.piece]) rfl
  · obtain ⟨rfl, rfl⟩ := close_eq_ok.mp e
    exact (hhead.trans (h.type hfirst)).completes (by decide) (by simp [Shape.pieces, Ident.piece]) rfl

theorem separatorStep_reads : StepReads (fun _ => []) separatorStep := by
  intro _ s step t e
  rcases eat_ite_eq_ok.mp e with ⟨hsemi, e⟩ | ⟨-, e⟩
  · obtain ⟨rfl, rfl⟩ := pure_eq_ok.mp e
    exact (Reads.mark hsemi rfl).again .refl
  rcases eat_ite_eq_ok.mp e with ⟨hcomma, e⟩ | ⟨-, e⟩
  · obtain ⟨rfl, rfl⟩ := pure_eq_ok.mp e
    exact (Reads.mark hcomma rfl).again .refl
  · obtain ⟨rfl, rfl⟩ := pure_eq_ok.mp e
    exact .idle

theorem skipSeparators_reads (e : skipSeparators s = .ok () t) : Reads s 0 [] t := by
  obtain ⟨ps, hps, hgroup⟩ := separatorStep_reads.repeating e
  exact hps.regroup hgroup

theorem structMemberStep_reads (h : r.Read) : StepReads collected (structMemberStep r) := by
  intro members s step t e
  rw [structMemberStep, kind_bind] at e
  generalize s.kind = k at e
  split at e
  · obtain ⟨rfl, rfl⟩ := pure_eq_ok.mp e
    exact .idle
  · obtain ⟨rfl, rfl⟩ := pure_eq_ok.mp e
    exact .idle
  · simp only [bind_eq_ok, pure_eq_ok] at e
    obtain ⟨n, u, hn, _, v, hskip, rfl, rfl⟩ := e
    exact ((h.structMember hn).trans (skipSeparators_reads hskip)).again (.of_eq collected_push)

theorem structDecl_completes (h : r.Read) {attrs : List Node} {mods : Modifiers} {start : Range}
    (e : structDecl r attrs mods start s = .ok n t) : Completes attrs s n t := by
  simp only [structDecl, bind_eq_ok, expect_eq_ok, expectName_eq_ok, withStructLiterals_eq_ok,
    close_eq_ok] at e
  obtain ⟨_, _, ⟨hkeyword, -, rfl⟩, _, _, ⟨hname, rfl, rfl⟩, params, u, hparams, _, _, ⟨hopen, -, rfl⟩,
    members, _, ⟨v, hmembers, rfl⟩, _, _, ⟨hclose, -, rfl⟩, rfl, rfl⟩ := e
  obtain ⟨ps, hps, hgroup⟩ := (structMemberStep_reads h).repeating hmembers
  have hread := ((Reads.mark hkeyword rfl).trans (.name hname)).trans
    ((generics_reads h hparams).trans ((Reads.mark hopen rfl).trans
      ((hps.regroup hgroup).withStructLiterals.trans (.mark hclose rfl))))
  exact hread.completes (by decide) (by simp [Shape.pieces, Ident.piece, collected]) rfl

/-! ### Any declaration -/

theorem modifierStep_reads : StepReads (fun _ => []) modifierStep := by
  intro mods s step t e
  rw [modifierStep, kind_bind] at e
  generalize hk : s.kind = k at e
  split at e
  · obtain ⟨rfl, rfl⟩ := pure_eq_ok.mp e
    exact (Reads.mark hk rfl).again .refl
  · obtain ⟨rfl, rfl⟩ := pure_eq_ok.mp e
    exact (Reads.mark hk rfl).again .refl
  · obtain ⟨rfl, rfl⟩ := pure_eq_ok.mp e
    exact .idle

theorem declarationAfter_completes (h : r.Read) {attrs : List Node} {start : Range}
    (e : declarationAfter r attrs start s = .ok n t) : Completes attrs s n t := by
  obtain ⟨mods, u, hmods, e⟩ := bind_eq_ok.mp e
  obtain ⟨ps, hps, hgroup⟩ := modifierStep_reads.repeating hmods
  have hmods := hps.regroup hgroup
  suffices hdecl : Completes attrs u n t by
    obtain ⟨qs, hqs, hgroup⟩ := hdecl
    exact ⟨qs, hmods.trans hqs, hgroup⟩
  rw [kind_bind] at e
  generalize u.kind = k at e
  split at e
  case h_1 => exact structDecl_completes h e
  case h_2 => exact enumDecl_completes h e
  case h_3 => exact typeDecl_completes h e
  case h_4 | h_5 => exact variableDecl_completes h e
  case h_6 | h_7 => exact functionDecl_completes h e
  case h_8 => exact (unexpected_eq_ok.mp e).elim

theorem declaration_reads (h : r.Read) : ReadsNode (declaration r) := by
  intro s n t e
  rw [declaration, here_bind] at e
  obtain ⟨attrs, u, hattrs, e⟩ := bind_eq_ok.mp e
  exact (declarationAfter_completes h e).reads (attributes_reads h hattrs)

theorem structField_completes (h : r.Read) {attrs : List Node} {start : Range}
    (e : structField r attrs start s = .ok n t) : Completes attrs s n t := by
  simp only [structField, bind_eq_ok, expectName_eq_ok, expect_eq_ok, close_eq_ok] at e
  obtain ⟨isPrivate, u, hprivate, _, _, ⟨hname, rfl, rfl⟩, _, _, ⟨hcolon, -, rfl⟩, type, v, htype,
    default, w, hdefault, rfl, rfl⟩ := e
  have hread := ((Reads.eat rfl hprivate).trans (.name hname)).trans ((Reads.mark hcolon rfl).trans
    ((h.type htype).trans (optionalAfter_reads h.expression rfl hdefault)))
  exact hread.completes (by decide) (by simp [Shape.pieces, Ident.piece]) rfl

theorem structMemberRule_reads (h : r.Read) : ReadsNode (structMemberRule r) := by
  intro s n t e
  rw [structMemberRule, here_bind] at e
  obtain ⟨attrs, u, hattrs, e⟩ := bind_eq_ok.mp e
  rw [check_bind, check_bind, peek_bind] at e
  rcases ite_eq_ok.mp e with ⟨-, e⟩ | ⟨-, e⟩
  · exact (structField_completes h e).reads (attributes_reads h hattrs)
  · exact (declarationAfter_completes h e).reads (attributes_reads h hattrs)

end BraceLang.Grammar
