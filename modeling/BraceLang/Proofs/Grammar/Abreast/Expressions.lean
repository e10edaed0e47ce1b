import BraceLang.Proofs.Grammar.Abreast
import BraceLang.Proofs.Grammar.Reads.Expressions

/-! Types and expressions side by side, before different closers. -/

namespace BraceLang.Grammar

variable {c d : Kind} {r : Rules} {m : Nat} {s t : State}

/-! ### Brackets behind a type

Whether a bracket opens an array suffix or the arguments of a generic is told by up to two tokens behind it.
Either way it has to be closed, so these tokens stand before the closer. -/

/-- Whether a bracket before tokens of these kinds opens an array suffix. -/
def opensArray (first second : Kind) : Bool :=
  match first with
  | .rBracket => true
  | .intLit => second == .rBracket
  | .name => second == .bang
  | _ => false

theorem atArraySuffix_run (s : State) : atArraySuffix s = .ok (opensArray (s.peek 1) (s.peek 2)) s := by
  rw [atArraySuffix, peek_bind]
  generalize s.peek 1 = k
  cases k <;> rfl

/-- Behind its first step a loop only moves on. -/
theorem StepReads.first {α : Type} {view : α → List (Piece Node)} {step : α → Parser (ForInStep α)}
    (h : StepReads view step) {a b : α} (hrun : Grammar.repeating a step s = .ok b t) :
    ∃ x u, step a s = .ok x u ∧ t.remaining ≤ u.remaining := by
  replace hrun : Grammar.repeatFrom step a s = .ok b t := hrun
  rw [Grammar.repeatFrom] at hrun
  cases hstep : step a s with
  | error err u =>
    rw [hstep] at hrun
    cases hrun
  | ok x u =>
    refine ⟨x, u, rfl, ?_⟩
    rw [hstep] at hrun
    cases x with
    | done b' =>
      cases hrun
      exact Nat.le_refl _
    | yield b' =>
      dsimp only at hrun
      split at hrun
      · obtain ⟨ps, hps, -⟩ := h.repeatFrom b' u hrun
        exact hps.moves.remaining_le
      · cases hrun
        exact Nat.le_refl _

/-- A list takes the token that closes it, and one more if it starts with an item. -/
theorem list_takes {close : Kind} {item : Parser Node} {ns : List Node} (hitem : ReadsNode item)
    (hclose : close.isMark = true) (hrun : list close item s = .ok ns t) :
    t.remaining + 1 ≤ s.remaining ∧ (s.kind ≠ close → t.remaining + 2 ≤ s.remaining) := by
  refine ⟨(list_reads hitem hclose hrun).takes, fun hkind => ?_⟩
  obtain ⟨t', hbody, rfl⟩ := withStructLiterals_eq_ok.mp hrun
  simp only [bind_eq_ok, expect_eq_ok, pure_eq_ok] at hbody
  obtain ⟨items, u, hitems, _, _, ⟨hk, -, rfl⟩, -, rfl⟩ := hbody
  obtain ⟨x, v, hstep, hle⟩ := (listStep_reads hitem).first hitems
  have hlast := (Reads.mark hk hclose).takes
  rcases check_ite_eq_ok.mp hstep with ⟨hk, -⟩ | ⟨-, hstep⟩
  · exact absurd hk hkind
  obtain ⟨n, w, hn, hstep⟩ := bind_eq_ok.mp hstep
  have hitem := (hitem hn).takes
  have hcomma : v.remaining ≤ w.remaining := by
    rcases eat_ite_eq_ok.mp hstep with ⟨-, hstep⟩ | ⟨-, hstep⟩
    · obtain ⟨-, rfl⟩ := pure_eq_ok.mp hstep
      exact (Moves.advance w).remaining_le
    · obtain ⟨-, rfl⟩ := pure_eq_ok.mp hstep
      exact Nat.le_refl _
  show u.advance.remaining + 2 ≤ s.remaining
  replace hitem : w.remaining + 1 ≤ s.remaining := hitem
  omega

/-- The suffixes of a type take a bracket ahead and the one that closes it, and one more token if there is
    something between them. -/
theorem typeSuffixes_takes (h : r.Read) {start : Range} {type n : Node} (hkind : s.kind = .lBracket)
    (hrun : typeSuffixes r start type s = .ok n t) :
    t.remaining + 2 ≤ s.remaining ∧ (s.peek 1 ≠ .rBracket → t.remaining + 3 ≤ s.remaining) := by
  obtain ⟨x, u, hstep, hle⟩ := (typeSuffixStep_reads h start).first hrun
  rcases eat_ite_eq_ok.mp hstep with ⟨-, hstep⟩ | ⟨hk, -⟩
  · simp only [bind_eq_ok, expect_eq_ok, close_eq_ok, pure_eq_ok] at hstep
    obtain ⟨size, v, hsize, _, _, ⟨hclose, -, rfl⟩, _, _, ⟨-, rfl⟩, -, rfl⟩ := hstep
    have hopened := (Reads.mark hkind rfl).takes
    have hclosed := (Reads.mark hclose rfl).takes
    replace hle : t.remaining ≤ v.advance.remaining := hle
    rw [← s.kind_advance]
    rcases check_ite_eq_ok.mp hsize with ⟨hk, hsize⟩ | ⟨-, hsize⟩
    · obtain ⟨-, rfl⟩ := pure_eq_ok.mp hsize
      exact ⟨by omega, fun hne => absurd hk hne⟩
    · obtain ⟨e, w, he, hsize⟩ := bind_eq_ok.mp hsize
      obtain ⟨-, rfl⟩ := pure_eq_ok.mp hsize
      have hinside := (h.expression.withStructLiterals he).takes
      exact ⟨by omega, fun _ => by omega⟩
  · exact absurd hkind hk

/-- A named type behind its path, with the arguments if it is generic. -/
def typeArguments (inner : Rules) (head : Ident) (path : List Ident) : Parser (Shape Node) := do
  if (← check .lBracket) && !(← atArraySuffix) then
    let _ ← advance
    return .named head path (← list .rBracket inner.type)
  else return .named head path []

/-- Whether the arguments of a generic type are ahead. -/
def atArguments (s : State) : Bool := s.kind == .lBracket && !opensArray (s.peek 1) (s.peek 2)

theorem typeArguments_bind {α : Type} (head : Ident) (path : List Ident) (f : Shape Node → Parser α)
    (s : State) : (typeArguments r head path >>= f) s =
      (if atArguments s = true then
        advance >>= fun _ => list .rBracket r.type >>= fun args => f (.named head path args)
      else f (.named head path [])) s := by
  have hrun : typeArguments r head path s = (if atArguments s = true then
      advance >>= fun _ => list .rBracket r.type >>= fun args => pure (.named head path args)
      else pure (.named head path [])) s := by
    simp only [typeArguments, check_bind, bind_of_ok (atArraySuffix_run s)]
    rfl
  rw [bind_congr_run hrun]
  cases atArguments s with
  | true =>
    simp only [if_true, bind_assoc, pure_bind]
  | false => simp only [Bool.false_eq_true, if_false, pure_bind]

/-- What stands behind the path of a named type. -/
def typeTail (inner : Rules) (start : Range) (base : Shape Node) : Parser Node := do
  typeSuffixes inner start (← close start base)

/-- Either way the bracket behind a named type is closed, so it takes two tokens at least, and a third if
    there is something between them. -/
theorem typeTail_takes (h : r.Read) {start : Range} {head : Ident} {path : List Ident} {n : Node}
    (hkind : s.kind = .lBracket)
    (hrun : (typeArguments r head path >>= typeTail r start) s = .ok n t) :
    t.remaining + 2 ≤ s.remaining ∧ (s.peek 1 ≠ .rBracket → t.remaining + 3 ≤ s.remaining) := by
  rw [typeArguments_bind] at hrun
  rcases ite_eq_ok.mp hrun with ⟨-, hrun⟩ | ⟨-, hrun⟩
  · simp only [advance_bind, bind_eq_ok, typeTail, close_eq_ok] at hrun
    obtain ⟨args, u, hargs, _, _, ⟨-, rfl⟩, hsuffixes⟩ := hrun
    obtain ⟨ps, hps, -⟩ := (typeSuffixStep_reads h start).repeating hsuffixes
    obtain ⟨hlist, hitem⟩ := list_takes h.type rfl hargs
    have hopened := (Reads.mark hkind rfl).takes
    have hle : t.remaining ≤ u.remaining := hps.moves.remaining_le
    rw [s.kind_advance] at hitem
    refine ⟨by omega, fun hne => ?_⟩
    have := hitem hne
    omega
  · simp only [bind_eq_ok, typeTail, close_eq_ok] at hrun
    obtain ⟨_, _, ⟨-, rfl⟩, hsuffixes⟩ := hrun
    have hkind : s.identified.kind = .lBracket := hkind
    have htakes := typeSuffixes_takes h hkind hsuffixes
    exact htakes

namespace Abreast
variable {rest : List Lexeme}

/-- A bracket that is closed before the closer is told apart alike. -/
theorem opensArray_eq (h : Abreast c d rest s t) (hlong : 2 ≤ rest.length)
    (hsize : s.peek 1 ≠ .rBracket → 3 ≤ rest.length) :
    opensArray (t.peek 1) (t.peek 2) = opensArray (s.peek 1) (s.peek 2) := by
  rw [h.peek_eq hlong]
  by_cases hk : s.peek 1 = .rBracket
  · rw [hk]
    rfl
  · rw [h.peek_eq (hsize hk)]

end Abreast

/-! ### Braces behind a name

Whether a brace opens the fields of a literal is told by up to two tokens behind it, also where it opens no
literal. One that stands before the closer is closed before it, so these tokens stand there too. -/

/-- Whether a brace before tokens of these kinds opens the fields of a struct literal. -/
def opensFields (first second : Kind) : Bool :=
  match first with
  | .rBrace => true
  | .name => second == .colon
  | _ => false

theorem atStructLiteral_run (s : State) :
    atStructLiteral s = .ok (opensFields (s.peek 1) (s.peek 2)) s := by
  rw [atStructLiteral, peek_bind]
  generalize s.peek 1 = k
  cases k <;> rfl

/-- Whether the fields of a struct literal are ahead. -/
def atFields (s : State) : Bool :=
  s.structLiterals && s.kind == .lBrace && opensFields (s.peek 1) (s.peek 2)

/-- What stands behind the name `path`. -/
def fieldsOrPath (inner : Rules) (start : Range) (path : Node) : Parser Node := do
  if (← get).structLiterals && (← check .lBrace) && (← atStructLiteral) then
    let _ ← expect .lBrace
    close start (.structLiteral path (← list .rBrace (fieldInit inner)))
  else return path

theorem fieldsOrPath_run (start : Range) (path : Node) (s : State) : fieldsOrPath r start path s =
    (if atFields s = true then
      expect .lBrace >>= fun _ => list .rBrace (fieldInit r) >>= fun fields =>
        close start (.structLiteral path fields)
    else pure path) s := by
  rw [fieldsOrPath, get_bind, check_bind, bind_of_ok (atStructLiteral_run s)]
  rfl

namespace Abreast
variable {rest : List Lexeme}

/-- A brace before the closers is followed by what tells whether it opens the fields of a literal. -/
theorem atFields_eq (h : Abreast c d rest s t) : atFields s = atFields t := by
  rw [atFields, atFields, ← h.structLiterals, ← h.kind.beq .lBrace rfl]
  by_cases hkind : s.kind = .lBrace
  · obtain ⟨l, more, rfl⟩ := List.exists_cons_of_ne_nil (h.ne_nil_of_kind hkind rfl)
    have hl : l.kind = .lBrace := h.left.kind.symm.trans hkind
    have hbraces := h.apart.braces _ (List.suffix_refl _)
    match more with
    | [] => simp [hl] at hbraces
    | [l'] =>
      have hl' : l'.kind ≠ .name := by
        rintro hl'
        simp [hl, hl'] at hbraces
      have hpeek : s.peek 1 = l'.kind := h.left.peek 1
      have hpeek' : t.peek 1 = l'.kind := h.right.peek 1
      rw [hpeek, hpeek']
      generalize l'.kind = k at hl'
      cases k <;> first | rfl | exact absurd rfl hl'
    | l' :: l'' :: more =>
      have hlong : 2 < (l :: l' :: l'' :: more).length := by simp
      rw [h.peek_eq (Nat.lt_of_succ_lt hlong), h.peek_eq hlong]
  · rw [beq_false_of_ne hkind, Bool.and_false, Bool.false_and, Bool.false_and]

end Abreast

/-- A step over a template takes a token. -/
theorem templateStep_takes (h : r.Read) {parts : Array Node} {x : ForInStep (Array Node)}
    (hrun : templateStep r parts s = .ok x t) : t.remaining < s.remaining := by
  rw [templateStep, kind_bind] at hrun
  generalize hk : s.kind = k at hrun
  split at hrun
  · obtain ⟨-, rfl⟩ := pure_eq_ok.mp hrun
    exact (Reads.mark hk rfl).takes
  · have htakes : s.advance.remaining < s.remaining :=
      Nat.lt_of_succ_le (State.remaining_advance (by rw [hk]; decide)).le
    rw [advance_bind] at hrun
    rcases ite_eq_ok.mp hrun with ⟨-, hrun⟩ | ⟨-, hrun⟩
    · obtain ⟨-, rfl⟩ := pure_eq_ok.mp hrun
      exact htakes
    · simp only [bind_eq_ok, node_eq_ok, pure_eq_ok] at hrun
      obtain ⟨_, _, ⟨-, rfl⟩, -, rfl⟩ := hrun
      exact htakes
  · cases unexpected_eq_ok.mp hrun
  · simp only [bind_eq_ok, pure_eq_ok] at hrun
    obtain ⟨_, _, hn, -, rfl⟩ := hrun
    exact (h.expression.withStructLiterals hn).takes

namespace Keeps

/-! ### Types -/

theorem arraySize (h : r.Keep c d) (m : Nat) : Keeps c d (m + 1) (arraySize r) :=
  fun _ _ => .check rfl fun _ _ => .ite (fun _ => .pure (.refl _)) fun _ =>
    .bind (.withStructLiterals (h.expression _)) fun _ _ _ _ hsize => .pure (congrArg some hsize)

theorem typeSuffixStep (h : r.Keep c d) {start start' : Range} {type type' : Node} (htype : Same type type') :
    Follows c d m s t (typeSuffixStep r start type s) (typeSuffixStep r start' type' t) := by
  refine .eat (Kind.told_of_not_closes rfl m) rfl fun _ s t => .ite (fun _ => ?_) fun _ =>
    .eat (Kind.told_of_not_closes rfl m) rfl fun _ s t => .ite (fun _ => ?_) fun _ => ?_
  · exact .upTo (arraySize h m s t) rfl fun _ _ _ _ _ _ hsize =>
      .bind (.close (congrArg₂ Shape.arrayType htype hsize)) fun _ _ _ _ hn => .pure (congrArg ForInStep.yield hn)
  · exact .bind (.close (congrArg Shape.optional htype)) fun _ _ _ _ hn => .pure (congrArg ForInStep.yield hn)
  · exact .pure (congrArg ForInStep.done htype)

theorem typeSuffixes (h : r.Keep c d) {start start' : Range} {type type' : Node} (htype : Same type type') :
    Follows c d m s t (typeSuffixes r start type s) (typeSuffixes r start' type' t) :=
  .repeating htype fun _ _ _ _ htype => typeSuffixStep h htype

theorem pathRest (m : Nat) : Keeps c d m pathRest := by
  refine fun s t => .bind (.repeating (.refl _) fun names names' s t hnames => ?_) fun _ _ _ _ hnames =>
    .pure hnames.toList
  refine .check (Kind.told_of_not_closes rfl m) fun b hb => .peek fun k k' hk => ?_
  rw [← hk.beq .name rfl]
  refine .ite (fun hdot => ?_) fun _ => .pure (congrArg ForInStep.done hnames)
  rw [Bool.and_eq_true] at hdot
  exact .advance (hb hdot.1) rfl fun _ _ _ _ _ => .expectName fun _ _ _ _ hname =>
    .pure (congrArg ForInStep.yield (hnames.push hname))

theorem pointee (h : r.Keep c d) (m : Nat) : Keeps c d m (pointee r) :=
  fun _ _ => .eat (Kind.told_of_not_closes rfl m) rfl fun isConst s t =>
    .bind (h.type m s t) fun _ _ _ _ htype => .pure (congrArg (Shape.pointer isConst) htype)

theorem baseType (h : r.Keep c d) (hname : s.kind ≠ .name) :
    Follows c d m s t (baseType r s) (baseType r t) := by
  refine .kind_taking (fun shape s' hrun => (baseType_builds h.read hrun).reads.takes) fun k hk => ?_
  refine .ite (fun hprim => ?_) fun _ => ?_
  · have hne : (k == .eof) = false := beq_false_of_ne fun h => by
      rw [h] at hprim
      cases hprim
    exact .advance hk hne fun _ _ _ _ _ => .pure (.refl _)
  split
  · exact absurd hk hname
  · exact .advance hk rfl fun _ _ _ _ _ => .bind (.list rfl (h.type _)) fun _ _ _ _ htypes =>
      .pure (congrArg Shape.tupleType htypes)
  · exact .advance hk rfl fun _ _ _ _ _ => .expect rfl fun _ _ _ _ _ =>
      .bind (.list rfl (h.type _)) fun _ _ _ _ hparams =>
        .bind (.optionalAfter (Kind.told_of_not_closes rfl m) rfl (h.type _)) fun _ _ _ _ hresult =>
          .pure (congrArg₂ Shape.funcType hparams hresult)
  · exact .advance hk rfl fun _ _ s t _ => pointee h m s t
  · exact .advance hk rfl fun _ _ _ _ _ => .here (.bind (pointee h m _ _) fun _ _ _ _ hshape =>
      .bind (.close hshape) fun _ _ _ _ hn => .pure (congrArg (Shape.pointer false) hn))
  · exact .unexpected

theorem namedType (h : r.Keep c d) {start start' : Range} :
    Follows c d m s t ((namedType r >>= typeTail r start) s) ((namedType r >>= typeTail r start') t) := by
  have steps (start : Range) (s : State) : (Grammar.namedType r >>= typeTail r start) s =
      (expectName >>= fun head => Grammar.pathRest >>= fun path =>
        typeArguments r head path >>= typeTail r start) s := by
    show ((expectName >>= fun head => Grammar.pathRest >>= fun path => typeArguments r head path) >>= _) s = _
    simp only [bind_assoc]
  have tail {shape shape' : Shape Node} {s t : State} (hshape : Same shape shape') :
      Follows c d m s t (typeTail r start shape s) (typeTail r start' shape' t) :=
    .bind (.close hshape) fun _ _ _ _ htype => typeSuffixes h htype
  rw [steps, steps]
  refine .expectName fun head head' s t hhead => .bind (pathRest m s t) fun path path' s t hpath => ?_
  rw [typeArguments_bind, typeArguments_bind]
  have hnamed {args args' : List Node} (hargs : Same args args') :
      Same (Shape.named head path args) (.named head' path' args') :=
    congrArg₃ Shape.named hhead hpath hargs
  refine .choose (fun rest n s' hs hrun hbefore => ?_) (fun hargs => ?_) fun _ => tail (hnamed (.refl _))
  · have hkinds := hs.kind.beq .lBracket rfl
    rw [atArguments, atArguments, ← hkinds]
    by_cases hkind : s.kind = .lBracket
    · rw [← typeArguments_bind] at hrun
      obtain ⟨hclosed, hsize⟩ := typeTail_takes h.read hkind hrun
      have hroom := hbefore.room
      have hremaining := hs.remaining
      rw [hs.opensArray_eq (by omega) fun hne => by have := hsize hne; omega]
    · rw [beq_false_of_ne hkind, Bool.false_and, Bool.false_and]
  · rw [atArguments, Bool.and_eq_true] at hargs
    exact .advance (beq_iff_eq.mp hargs.1) rfl fun _ _ _ _ _ => .bind (.list rfl (h.type _))
      fun _ _ _ _ hargs => tail (hnamed hargs)

theorem typeRule (h : r.Keep c d) (m : Nat) : Keeps c d m (typeRule r) := by
  intro s t
  show Follows c d m s t ((Grammar.baseType r >>= typeTail r s.current.range) s)
    ((Grammar.baseType r >>= typeTail r t.current.range) t)
  by_cases hname : s.kind = .name
  · have named {start : Range} {s : State} (hname : s.kind = .name) :
        (Grammar.baseType r >>= typeTail r start) s = (Grammar.namedType r >>= typeTail r start) s := by
      refine bind_congr_run ?_
      rw [Grammar.baseType, kind_bind, hname]
      rfl
    have hself : Follows c d m s t ((Grammar.baseType r >>= typeTail r s.current.range) s)
        ((Grammar.namedType r >>= typeTail r t.current.range) t) := by
      rw [named hname]
      exact namedType h
    refine ⟨hself.moves, fun rest hs a s' hrun hbefore => ?_⟩
    have hlt : s'.remaining < s.remaining := (typeRule_reads h.read hrun).takes
    have hrest := (hbefore.of_takes (hself.moves a s' hrun) hlt).ne_nil hs
    rw [named ((hs.kind_eq hrest).trans hname)]
    exact hself.leads rest hs a s' hrun hbefore
  · exact .bind (baseType h hname) fun _ _ _ _ hbase => .bind (.close hbase) fun _ _ _ _ htype =>
      typeSuffixes h htype

/-! ### Signatures and closures -/

theorem parameter (h : r.Keep c d) (m : Nat) : Keeps c d (m + 1) (parameter r) :=
  fun _ _ => .here (.expectName fun _ _ _ _ hname => .bind (.optionalAfter rfl rfl (h.type _))
    fun _ _ _ _ htype => .bind (.optionalAfter rfl rfl (h.expression _)) fun _ _ _ _ hdefault =>
      .close (congrArg₃ Shape.param hname htype hdefault))

theorem callSignature (h : r.Keep c d) (m : Nat) : Keeps c d m (callSignature r) :=
  fun _ _ => .here (.expect rfl fun _ _ _ _ _ => .bind (.list rfl (parameter h m)) fun _ _ _ _ hparams =>
    .bind (.optionalAfter (Kind.told_of_not_closes rfl m) rfl (h.type _)) fun _ _ _ _ hresult =>
      .close (congrArg₂ Shape.signature hparams hresult))

theorem closureStart (m : Nat) : Keeps c d m closureStart := by
  refine fun s t => .bind .takePendingAsync fun pending pending' s t hpending => ?_
  cases pending <;> cases pending'
  · exact .here (.eat (Kind.told_of_not_closes rfl m) rfl fun _ _ _ => .pure (.refl _))
  · cases hpending
  · cases hpending
  · exact .pure (.refl _)

theorem closureBody (h : r.Keep c d) (m : Nat) : Keeps c d m (closureBody r) :=
  fun _ _ => .eat (Kind.told_of_not_closes rfl m) rfl fun _ s t => .ite (fun _ => h.expression m s t) fun _ =>
    .check (Kind.told_of_not_closes rfl m) fun _ _ => .ite (fun _ => h.block m s t) fun _ => .unexpected

theorem closure (h : r.Keep c d) (m : Nat) : Keeps c d m (closure r) :=
  fun s t => .bind (closureStart m s t) fun _ _ _ _ hstart => .expect rfl fun _ _ s t _ =>
    .bind (callSignature h m s t) fun _ _ s t hsignature => .bind (closureBody h m s t) fun _ _ _ _ hbody =>
      .close (congrArg₃ Shape.closure hstart.snd hsignature hbody)

/-! ### Primaries -/

theorem literal {token token' : Token} (h : Same token token') : Same (literal token) (literal token') := by
  rw [Grammar.literal, Grammar.literal, h.kind_eq, h.payload_eq]
  exact .refl _

theorem templateStep (h : r.Keep c d) {parts parts' : Array Node} (hparts : Same parts parts') :
    Follows c d m s t (templateStep r parts s) (templateStep r parts' t) := by
  refine .kind_taking (fun x s' hrun => templateStep_takes h.read hrun) fun k hk => ?_
  split
  · exact .advance hk rfl fun _ _ _ _ _ => .pure (congrArg ForInStep.done hparts)
  · refine .advance hk rfl fun token token' s t htoken => ?_
    rw [htoken.text_eq]
    refine .ite (fun _ => .pure (congrArg ForInStep.yield hparts)) fun _ => ?_
    exact .bind (.node (.refl _)) fun _ _ _ _ hn => .pure (congrArg ForInStep.yield (hparts.push hn))
  · exact .unexpected
  · exact .bind (.withStructLiterals (h.expression m)) fun _ _ _ _ hn =>
      .pure (congrArg ForInStep.yield (hparts.push hn))

theorem template (h : r.Keep c d) (m : Nat) : Keeps c d m (template r) :=
  fun _ _ => .here (.expect rfl fun _ _ _ _ _ =>
    .bind (.repeating (.refl _) fun _ _ _ _ hparts => templateStep h hparts) fun _ _ _ _ hparts =>
      .close (congrArg Shape.template hparts.toList))

theorem elementStep (h : r.Keep c d) {elements elements' : Array Node} (helements : Same elements elements') :
    Follows c d (m + 1) s t (elementStep r elements s) (elementStep r elements' t) :=
  .eat rfl rfl fun _ s t => .check rfl fun _ _ => .ite
    (fun _ => .bind (h.expression _ s t) fun _ _ _ _ hn => .pure (congrArg ForInStep.yield (helements.push hn)))
    fun _ => .pure (congrArg ForInStep.done helements)

theorem moreElements (h : r.Keep c d) {first first' : Node} (hfirst : Same first first') :
    Follows c d (m + 1) s t (moreElements r first s) (moreElements r first' t) :=
  .bind (.repeating hfirst.singleton fun _ _ _ _ helements => elementStep h helements)
    fun _ _ _ _ helements => .pure helements.toList

/-- The elements between parentheses stand before the closing one. -/
theorem insideParens (h : r.Keep c d) (m : Nat) : Keeps c d m (insideParens r) := by
  refine fun s t => .check_taking (fun shape s' hrun => (insideParens_reads h.read hrun).reads.takes) fun b _ =>
    .ite (fun _ => .expect rfl fun _ _ _ _ _ => .pure (.refl _)) fun _ => ?_
  have steps (s : State) : (r.expression >>= fun first => check .comma >>= fun isTuple =>
      Grammar.moreElements r first >>= fun elements => expect .rParen >>= fun _ =>
        pure (if isTuple = true then Shape.tuple elements else .group first)) s =
      ((r.expression >>= fun first => check .comma >>= fun isTuple => Grammar.moreElements r first >>=
        fun elements => pure (if isTuple = true then Shape.tuple elements else .group first)) >>=
          fun shape => expect .rParen >>= fun _ => pure shape) s := by
    simp only [bind_assoc, pure_bind]
  rw [steps, steps]
  refine .upTo (.bind (h.expression _ s t) fun first first' s t hfirst => .check rfl fun isTuple _ =>
    .bind (moreElements h hfirst) fun elements elements' s t helements => .pure ?_) rfl
    fun _ _ _ _ _ _ hshape => .pure hshape
  cases isTuple with
  | true => exact congrArg Shape.tuple helements
  | false => exact congrArg Shape.group hfirst

theorem parenthesized (h : r.Keep c d) (m : Nat) : Keeps c d m (parenthesized r) :=
  fun _ _ => .here (.expect rfl fun _ _ _ _ _ => .bind (.withStructLiterals (insideParens h m))
    fun _ _ _ _ hshape => .close hshape)

theorem fieldInit (h : r.Keep c d) (m : Nat) : Keeps c d (m + 1) (fieldInit r) :=
  fun _ _ => .here (.expectName fun _ _ _ _ hname => .expect rfl fun _ _ s t _ =>
    .bind (h.expression _ s t) fun _ _ _ _ hvalue => .close (congrArg₂ Shape.fieldInit hname hvalue))

/-- A struct literal that starts with `path`, or the path alone. -/
theorem fieldsOrPath (h : r.Keep c d) {start start' : Range} {path path' : Node} (hpath : Same path path') :
    Follows c d m s t (fieldsOrPath r start path s) (fieldsOrPath r start' path' t) := by
  rw [fieldsOrPath_run, fieldsOrPath_run]
  refine .choose (fun rest n s' hs _ _ => hs.atFields_eq) (fun hfields => ?_) fun _ => .pure hpath
  exact .expect rfl fun _ _ _ _ _ => .bind (.list rfl (fieldInit h m)) fun _ _ _ _ hfields =>
    .close (congrArg₂ Shape.structLiteral hpath hfields)

theorem nameOrStructLiteral (h : r.Keep c d) (hkind : s.kind = .name) :
    Follows c d m s t (nameOrStructLiteral r s) (nameOrStructLiteral r t) := by
  refine .here (.advance hkind rfl fun token token' s t htoken => .bind (.node ?_) fun _ _ _ _ hpath =>
    fieldsOrPath h hpath)
  rw [htoken.text_eq]
  exact .refl _

/-- A value that may be absent, with something behind it before the closer. -/
theorem optionalValue (h : r.Keep c d) (ends : Kind → Bool) (m : Nat) :
    Keeps c d (m + 1) (optionalValue ends r) :=
  fun s t => .kind fun _ _ => .ite (fun _ => .pure (.refl _)) fun _ =>
    .bind (h.expression _ s t) fun _ _ _ _ hvalue => .pure (congrArg some hvalue)

/-- Where nothing is left before the closer, a `yield` with a value would take the closer. -/
theorem yielded (h : r.Keep c d) (hkind : s.kind = .kwYield) {start start' : Range} :
    Follows c d m s t
      ((advance >>= fun _ => Grammar.optionalValue endsYield r >>= fun value => close start (.yield value)) s)
      ((advance >>= fun _ => Grammar.optionalValue endsYield r >>= fun value => close start' (.yield value)) t) := by
  have steps (start : Range) (s : State) :
      (advance >>= fun _ => Grammar.optionalValue endsYield r >>= fun value => close start (.yield value)) s =
      (if endsYield (s.peek 1) = true then advance >>= fun _ => close start (.yield none)
      else advance >>= fun _ => r.expression >>= fun value => close start (.yield (some value))) s := by
    simp only [advance_bind, Grammar.optionalValue, bind_assoc, kind_bind, s.kind_advance]
    cases endsYield (s.peek 1) with
    | true => rfl
    | false =>
      simp only [Bool.false_eq_true, if_false, bind_assoc, pure_bind]
      rfl
  rw [steps, steps]
  refine .choose (fun rest n s' hs hrun hbefore => ?_) (fun _ => ?_) fun _ => ?_
  · obtain ⟨l, more, rfl⟩ := List.exists_cons_of_ne_nil (hs.ne_nil_of_kind hkind rfl)
    cases more with
    | cons l' more => rw [hs.peek_eq (Nat.succ_lt_succ (Nat.succ_pos _))]
    | nil =>
      have hl : l.kind = .kwYield := hs.left.kind.symm.trans hkind
      have hyields := hs.apart.yields [l] (List.suffix_refl _) (congrArg (fun k => [k]) hl)
      have hlast := hs.advance.kind_last
      rw [State.kind_advance, State.kind_advance] at hlast
      rw [hlast.1, hlast.2, hyields]
      rw [hlast.1] at hrun
      cases hends : endsYield c with
      | true => rfl
      | false =>
        rw [hends] at hrun
        simp only [Bool.false_eq_true, if_false, advance_bind, bind_eq_ok, close_eq_ok] at hrun
        obtain ⟨value, u, hvalue, -, rfl⟩ := hrun
        have htakes := (h.read.expression hvalue).takes
        have hroom : (closing c).length + m ≤ u.remaining := hbefore.room
        have hremaining : s.advance.remaining = 0 + (closing c).length := hs.advance.remaining
        omega
  · exact .advance hkind rfl fun _ _ _ _ _ => .close (.refl _)
  · exact .advance hkind rfl fun _ _ s t _ => .bind (h.expression m s t) fun _ _ _ _ hvalue =>
      .close (congrArg (Shape.yield ∘ some) hvalue)

theorem primary (h : r.Keep c d) (m : Nat) : Keeps c d m (primary r) := by
  refine fun s t => .here (.kind_taking (fun n s' hrun => (primary_reads h.read hrun).takes) fun k hk => ?_)
  split
  case h_1 | h_2 | h_3 | h_4 | h_5 | h_6 =>
    exact .advance hk rfl fun _ _ _ _ htoken => .node (literal htoken)
  case h_7 => exact template h m s t
  case h_8 => exact parenthesized h m s t
  case h_9 => exact h.block m s t
  case h_10 =>
    exact .advance hk rfl fun _ _ _ _ _ => .bind (.list rfl (h.expression _)) fun _ _ _ _ helements =>
      .close (congrArg Shape.array helements)
  case h_11 =>
    exact .advance hk rfl fun _ _ _ _ _ => .expectName fun _ _ _ _ hname => .close (congrArg Shape.dot hname)
  case h_12 => exact nameOrStructLiteral h hk
  case h_13 | h_14 => exact closure h m s t
  case h_15 =>
    exact .advance hk rfl fun _ _ s t _ => .bind (h.type m s t) fun _ _ _ _ htype =>
      .expect rfl fun _ _ _ _ _ => .bind (.list rfl (h.expression _)) fun _ _ _ _ hargs =>
        .close (congrArg₂ Shape.new htype hargs)
  case h_16 => exact yielded h hk
  case h_17 =>
    exact .advance hk rfl fun _ _ s t _ => .bind (h.expression m s t) fun _ _ _ _ hvalue =>
      .close (congrArg Shape.spread hvalue)
  case h_18 => exact .unexpected

/-! ### Operators -/

theorem memberName (m : Nat) : Keeps c d m memberName := by
  refine fun s t => .kind_tail (Kind.forall_closes.mpr ⟨rfl, rfl, rfl, rfl, rfl, rfl, rfl⟩) fun k hk => ?_
  split
  · refine .advance hk rfl fun token token' _ _ htoken => .node ?_
    rw [htoken.text_eq]
    exact .refl _
  · refine .advance hk rfl fun token token' _ _ htoken => .node ?_
    rw [htoken.int_eq]
    exact .refl _
  · exact .unexpected

theorem suffix? (h : r.Keep c d) {target target' : Node} (htarget : Same target target') :
    Follows c d m s t (suffix? r target s) (suffix? r target' t) := by
  refine .kind_tail (Kind.forall_closes.mpr ⟨rfl, rfl, rfl, rfl, rfl, rfl, rfl⟩) fun k hk => ?_
  split
  case h_1 | h_2 =>
    exact .advance hk rfl fun _ _ _ _ _ => .pure (congrArg (some ∘ Shape.postfixed _) htarget)
  case h_3 | h_4 =>
    exact .advance hk rfl fun _ _ s t _ => .bind (memberName m s t) fun _ _ _ _ hmember =>
      .pure (congrArg₂ (fun target member => some (Shape.member target member _)) htarget hmember)
  case h_5 =>
    exact .advance hk rfl fun _ _ _ _ _ => .bind (.list rfl (h.expression _)) fun _ _ _ _ hargs =>
      .pure (congrArg₂ (fun target args => some (Shape.index target args)) htarget hargs)
  case h_6 =>
    refine .advance hk rfl fun _ _ _ _ _ => .eat (Kind.told_of_not_closes rfl m) rfl fun _ _ _ =>
      .ite (fun _ => ?_) fun _ => .pure (congrArg (some ∘ Shape.macroName) htarget)
    exact .bind (.list rfl (h.expression _)) fun _ _ _ _ hargs =>
      .pure (congrArg₂ (fun target args => some (Shape.macroCall target args)) htarget hargs)
  case h_7 =>
    exact .advance hk rfl fun _ _ _ _ _ => .bind (.list rfl (h.expression _)) fun _ _ _ _ hargs =>
      .pure (congrArg₂ (fun target args => some (Shape.call target args)) htarget hargs)
  case h_8 =>
    exact .advance hk rfl fun _ _ s t _ => .bind (h.type m s t) fun _ _ _ _ htype =>
      .pure (congrArg₂ (fun target type => some (Shape.cast target type)) htarget htype)
  case h_9 => exact .pure (.refl _)

theorem suffixStep (h : r.Keep c d) {start start' : Range} {target target' : Node}
    (htarget : Same target target') :
    Follows c d m s t (suffixStep r start target s) (suffixStep r start' target' t) := by
  refine .bind (suffix? h htarget) fun found found' s t hfound => ?_
  cases found <;> cases found'
  · exact .pure (congrArg ForInStep.done htarget)
  · cases hfound
  · cases hfound
  · exact .bind (.close (Option.some.inj hfound)) fun _ _ _ _ hn => .pure (congrArg ForInStep.yield hn)

theorem suffixed (h : r.Keep c d) (m : Nat) : Keeps c d m (suffixed r) :=
  fun s t => .here (.bind (primary h m s t) fun _ _ _ _ hfirst =>
    .repeating hfirst fun _ _ _ _ htarget => suffixStep h htarget)

theorem ne_eof_of_isMark {k : Kind} (h : k.isMark = true) : (k == .eof) = false := by
  refine beq_false_of_ne ?_
  rintro rfl
  cases h

theorem prefixed (h : r.Keep c d) (m : Nat) : Keeps c d m (prefixed r) := by
  refine fun s t => .kind_tail (Kind.forall_closes.mpr ⟨rfl, rfl, rfl, rfl, rfl, rfl, rfl⟩) fun op hop =>
    .ite (fun hprefix => ?_) fun _ => suffixed h m s t
  exact .here (.advance hop (ne_eof_of_isMark (isMark_of_prefixOp op hprefix)) fun _ _ s t _ =>
    .bind (h.unary m s t) fun _ _ _ _ hoperand => .close (congrArg (Shape.prefixed op) hoperand))

theorem binaryStep (h : r.Keep c d) (limit : Nat) {start start' : Range} {lhs lhs' : Node}
    (hlhs : Same lhs lhs') :
    Follows c d m s t (binaryStep r limit start lhs s) (binaryStep r limit start' lhs' t) := by
  refine .kind_tail (Kind.forall_closes.mpr ⟨rfl, rfl, rfl, rfl, rfl, rfl, rfl⟩) fun op hop =>
    .ite (fun hbinary => ?_) fun _ => .pure (congrArg ForInStep.done hlhs)
  have hmark := isMark_of_binary op (Bool.and_eq_true_iff.mp hbinary).1
  exact .advance hop (ne_eof_of_isMark hmark) fun _ _ s t _ => .bind (h.operand _ m s t) fun _ _ _ _ hrhs =>
    .bind (.close (congrArg₂ (Shape.binary op) hlhs hrhs)) fun _ _ _ _ hn => .pure (congrArg ForInStep.yield hn)

theorem binary (h : r.Keep c d) (limit m : Nat) : Keeps c d m (binary r limit) :=
  fun s t => .here (.bind (prefixed h m s t) fun _ _ _ _ hfirst =>
    .repeating hfirst fun _ _ _ _ hlhs => binaryStep h limit hlhs)

theorem assignment (h : r.Keep c d) (m : Nat) : Keeps c d m (assignment r) := by
  refine fun s t => .here (.bind (binary h _ m s t) fun target target' s t htarget =>
    .kind_tail (Kind.forall_closes.mpr ⟨rfl, rfl, rfl, rfl, rfl, rfl, rfl⟩) fun op hop =>
      .ite (fun hassign => ?_) fun _ => .pure htarget)
  exact .advance hop (ne_eof_of_isMark (isMark_of_assignment op hassign)) fun _ _ s t _ =>
    .bind (h.expression m s t) fun _ _ _ _ hvalue => .close (congrArg₂ (Shape.assign op) htarget hvalue)

/-- The middle branch of a conditional, with the last one behind it. -/
theorem middleBranch (h : r.Keep c d) (m : Nat) : Keeps c d (m + 1) (middleBranch r) :=
  fun _ _ => .eat rfl rfl fun _ s t => .ite (fun _ => .pure (.refl _)) fun _ =>
    .bind (h.expression _ s t) fun _ _ _ _ hbranch => .expect rfl fun _ _ _ _ _ =>
      .pure (congrArg some hbranch)

theorem expressionRule (h : r.Keep c d) (m : Nat) : Keeps c d m (expressionRule r) := by
  refine fun s t => .here (.bind (assignment h m s t) fun condition condition' s t hcondition =>
    .kind_tail (Kind.forall_closes.mpr ⟨rfl, rfl, rfl, rfl, rfl, rfl, rfl⟩) fun op hop =>
      .ite (fun hternary => ?_) fun _ => .pure hcondition)
  refine .advance hop (ne_eof_of_isMark (isMark_of_ternary op hternary)) fun _ _ s t _ =>
    .bind_before (middleBranch h m s t) (fun middle middle' s t hmiddle =>
      .bind (h.expression m s t) fun _ _ _ _ hlast =>
        .close (congrArg₃ Shape.ternary hcondition hmiddle hlast)) fun middle s n s' hrun => ?_
  simp only [bind_eq_ok, close_eq_ok] at hrun
  obtain ⟨last, u, hlast, -, rfl⟩ := hrun
  exact (h.read.expression hlast).takes

end Keeps

end BraceLang.Grammar
