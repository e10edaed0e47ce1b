import BraceLang.Proofs.Grammar.RoundTrip
import BraceLang.Proofs.Node.TypeSpelling

/-! Reading a type back from its spelling. A bracket behind a named type is told by what stands in it, so
    what may follow an operand is a property of the lexemes ahead and not of the nearest alone
    (`EndsOperand`). The loop over suffixes is followed as that over the suffixes of an expression. -/

namespace BraceLang.Grammar

variable {inner : Rules} {e x n : Node} {ls rest out : List Lexeme} {spelled : List (Node × List Lexeme)}
  {good : Node → Prop} {start : Range}

/-! ### Where a type ends -/

/-- Whether a token of this kind goes on with a type. -/
def extendsType (k : Kind) : Bool := k ∈ [.lBracket, .question, .dot, .arrow]

/-- The brackets of an array suffix. -/
inductive ArraySuffix : List Lexeme → Prop where
  | unsized : ArraySuffix [.bare .lBracket, .bare .rBracket]
  | sized (value : Nat) : ArraySuffix [.bare .lBracket, .int value, .bare .rBracket]

/-- A type that a suffix may follow is whole before these lexemes, or has a suffix there. -/
def EndsOperand (rest : List Lexeme) : Prop :=
  extendsType (nearest rest) = false ∨ nearest rest = .question ∨
    ∃ ls more, ArraySuffix ls ∧ rest = ls ++ more

theorem EndsOperand.nearest_ne {k : Kind} (h : EndsOperand rest) (hk : k = .dot ∨ k = .arrow) :
    nearest rest ≠ k := by
  rintro rfl
  rcases h with h | h | ⟨ls, more, hls, rfl⟩
  · rcases hk with hk | hk <;> rw [hk] at h <;> cases h
  · rcases hk with hk | hk <;> rw [hk] at h <;> cases h
  · cases hls <;> rcases hk with hk | hk <;> cases hk

theorem yields_atArraySuffix : Yields atArraySuffix ls (fun _ => True) ls := by
  intro s hs
  have run : ∃ b, atArraySuffix s = .ok b s := by
    rw [atArraySuffix, Grammar.peek_bind]
    generalize s.peek 1 = k
    split <;> exact ⟨_, rfl⟩
  obtain ⟨b, hb⟩ := run
  exact ⟨b, s, hb, trivial, hs⟩

/-- A bracket behind an operand is an array suffix. -/
theorem EndsOperand.atArraySuffix (h : EndsOperand rest) :
    Yields atArraySuffix rest (fun b => nearest rest = .lBracket → b = true) rest := by
  rcases h with h | h | ⟨ls, more, hls, rfl⟩
  · refine yields_atArraySuffix.mono fun b _ hrest => ?_
    rw [hrest] at h
    cases h
  · refine yields_atArraySuffix.mono fun b _ hrest => ?_
    cases hrest.symm.trans h
  · cases hls with
    | unsized => exact .peek_bind (.pure fun _ => rfl)
    | sized value => exact .peek_bind (.peek_bind (.pure fun _ => rfl))

/-- A bracket before a type opens the arguments of a generic. -/
theorem yields_atArraySuffix_false {layer : TypeLayer} {l : Lexeme} (h : SpellsType layer x ls)
    (hrest : nearest rest ≠ .bang) :
    Yields atArraySuffix (l :: (ls ++ rest)) (· = false) (l :: (ls ++ rest)) := by
  have starts := h.nearest_starts rest
  have second := h.second_ne_bang hrest
  refine .peek_bind ?_
  rw [List.drop_succ_cons, List.drop_zero]
  generalize nearest (ls ++ rest) = k at starts second
  split
  · cases starts
  · cases starts
  · refine .peek_bind (.pure ?_)
    exact beq_false_of_ne (second rfl)
  · exact .pure rfl

/-! ### Suffixes -/

theorem yields_typeSuffix_done (hrest : extendsType (nearest rest) = false) (hn : Alike e n) :
    Yields (repeating n (typeSuffixStep inner start)) rest (Alike e) rest := by
  have ne {k : Kind} (hk : extendsType k = true) : nearest rest ≠ k := by
    rintro rfl
    cases hk.symm.trans hrest
  refine .repeating_done (.eat_bind_of_ne (ne rfl) (.eat_bind_of_ne (ne rfl) ?_))
  exact .pure ⟨n, rfl, hn⟩

theorem yields_optionalSuffix {id : NodeId} {range : Range} (hn : Alike x n)
    (next : ∀ m, Alike ⟨id, range, none, .optional x⟩ m →
      Yields (repeating m (typeSuffixStep inner start)) rest good out) :
    Yields (repeating n (typeSuffixStep inner start)) (.bare .question :: rest) good out := by
  refine Yields.repeating_yield ?_ (Nat.lt_succ_self _) next
  refine .eat_bind_of_ne Kind.noConfusion (.eat_bind ?_)
  refine Yields.bind (.close_alike ?_) fun m hm => .pure ⟨m, rfl, hm⟩
  exact congrArg Shape.optional hn

theorem yields_arraySuffix {id : NodeId} {range : Range} {size : Option Node} (hn : Alike x n)
    (hsize : Yields (arraySize inner) (ls ++ .bare .rBracket :: rest)
      (fun m => m.map Node.skeleton = size.map Node.skeleton) (.bare .rBracket :: rest))
    (next : ∀ m, Alike ⟨id, range, none, .arrayType x size⟩ m →
      Yields (repeating m (typeSuffixStep inner start)) rest good out) :
    Yields (repeating n (typeSuffixStep inner start))
      (.bare .lBracket :: (ls ++ .bare .rBracket :: rest)) good out := by
  refine Yields.repeating_yield ?_ ?_ next
  · refine .eat_bind (hsize.bind fun m hm => .expect_bind fun _ _ => ?_)
    refine Yields.bind (.close_alike ?_) fun m hm => .pure ⟨m, rfl, hm⟩
    show Shape.arrayType n.skeleton (m.map Node.skeleton) =
      .arrayType x.skeleton (size.map Node.skeleton)
    rw [hn, hm]
  · simp only [List.length_cons, List.length_append]
    omega

theorem yields_arraySize_none :
    Yields (arraySize inner) ([] ++ .bare .rBracket :: rest) (fun m => m.map Node.skeleton = none)
      (.bare .rBracket :: rest) :=
  .check_bind (.pure rfl)

theorem yields_arraySize (hx : ReadsInner inner x) :
    Yields (arraySize inner) (x.lexemes ++ .bare .rBracket :: rest)
      (fun m => m.map Node.skeleton = some x.skeleton) (.bare .rBracket :: rest) := by
  refine .check_bind ?_
  rw [beq_false_of_ne (hx.nearest_ne (.inr rfl) _), if_neg (by decide)]
  refine (hx.reads _ (endsAt_closing (.inr rfl))).withStructLiterals.bind fun m hm => .pure ?_
  exact congrArg some hm

/-! ### Types without suffixes -/

/-- The types, written with commas between them, are read back one level deeper. -/
def ReadsTypes (inner : Rules) (spelled : List (Node × List Lexeme)) : Prop :=
  ∀ p ∈ spelled, SpellsType .any p.1 p.2 ∧ ∀ rest, extendsType (nearest rest) = false →
    Yields inner.type (p.2 ++ rest) (Alike p.1) rest

theorem ReadsTypes.list {closing : Kind} (h : ReadsTypes inner spelled)
    (hclosing : closing = .rParen ∨ closing = .rBracket) :
    Yields (list closing inner.type) (commaSeparated (spelled.map Prod.snd) ++ .bare closing :: rest)
      (AllAlike (spelled.map Prod.fst)) rest := by
  refine yields_items (by rcases hclosing with rfl | rfl <;> decide) fun p hp => ?_
  obtain ⟨spells, reads⟩ := h p hp
  refine ⟨spells.nearest_ne (by rcases hclosing with rfl | rfl <;> rfl), ?_⟩
  rintro k (rfl | rfl) rest
  · exact reads _ rfl
  · exact reads _ (by rcases hclosing with rfl | rfl <;> rfl)

theorem yields_prim {k : Kind} (hk : k.roles.primitive = true) :
    Yields (baseType inner) (.bare k :: rest) (AlikeShape (.prim k)) rest := by
  refine .kind_bind ?_
  rw [show nearest (.bare k :: rest) = k from rfl, if_pos hk]
  exact .advance_bind fun _ _ => .pure rfl

theorem yields_expectName {text : String} :
    Yields expectName (.name text :: rest) (·.text = text) rest := by
  refine .check_bind (.advance_bind fun token htoken => .pure ?_)
  exact Token.text_of_lexeme htoken

/-- The names `ms` differ from `ns` in their ranges only. -/
def SameNames (ns ms : List Ident) : Prop := ms.map Ident.unplaced = ns.map Ident.unplaced

theorem SameNames.push {ns : List Ident} {names : Array Ident} {n m : Ident}
    (h : SameNames ns names.toList) (hm : m.text = n.text) :
    SameNames (ns ++ [n]) (names.push m).toList := by
  rw [SameNames, Array.toList_push, List.map_append, List.map_append, h, List.map_singleton,
    List.map_singleton, Ident.unplaced, Ident.unplaced, hm]

theorem yields_pathStep {ns : List Ident} {names : Array Ident} {n : Ident}
    (hnames : SameNames ns names.toList) :
    Yields (pathStep names) (.bare .dot :: .name n.text :: rest)
      (fun r => ∃ ms, r = .yield ms ∧ SameNames (ns ++ [n]) ms.toList) rest := by
  refine .check_bind (.peek_bind (.advance_bind fun _ _ => ?_))
  exact yields_expectName.bind fun m hm => .pure ⟨_, rfl, hnames.push hm⟩

theorem yields_pathSteps {ns path : List Ident} {names : Array Ident}
    (hnames : SameNames ns names.toList) (hrest : nearest rest ≠ .dot) :
    Yields (repeating names pathStep) (pathRestLexemes path ++ rest)
      (fun ms => SameNames (ns ++ path) ms.toList) rest := by
  induction path generalizing ns names with
  | nil =>
    refine .repeating_done (.check_bind (.peek_bind ?_))
    rw [pathRestLexemes, List.flatMap_nil, List.nil_append, beq_false_of_ne hrest, Bool.false_and,
      if_neg (by decide), List.append_nil]
    exact .pure ⟨names, rfl, hnames⟩
  | cons n path ih =>
    have tail {ms : Array Ident} (hms : SameNames (ns ++ [n]) ms.toList) := ih hms
    rw [List.append_cons]
    refine (yields_pathStep hnames).repeating_yield ?_ fun ms hms => tail hms
    show (pathRestLexemes path ++ rest).length < (pathRestLexemes path ++ rest).length + 1 + 1
    omega

theorem yields_pathRest {path : List Ident} (hrest : nearest rest ≠ .dot) :
    Yields pathRest (pathRestLexemes path ++ rest) (SameNames path) rest := by
  have none : SameNames [] #[].toList := rfl
  exact (yields_pathSteps none hrest).bind fun _ hms => .pure hms

theorem alikeShape_named {head head' : Ident} {path path' : List Ident} {args args' : List Node}
    (hhead : head'.text = head.text) (hpath : SameNames path path')
    (hargs : AllAlike args args') :
    AlikeShape (.named head path args) (.named head' path' args') := by
  show Shape.named head'.unplaced (path'.map Ident.unplaced) (args'.map Node.skeleton) =
    .named head.unplaced (path.map Ident.unplaced) (args.map Node.skeleton)
  rw [Ident.unplaced, Ident.unplaced, hhead, hpath, hargs]

theorem yields_namedType {head : Ident} {path : List Ident} (hargs : ReadsTypes inner spelled)
    (ends : EndsOperand rest) :
    Yields (namedType inner)
      (pathLexemes head path ++ argumentLexemes (spelled.map Prod.snd) ++ rest)
      (AlikeShape (.named head path (spelled.map Prod.fst))) rest := by
  have noDot : nearest (argumentLexemes (spelled.map Prod.snd) ++ rest) ≠ .dot := by
    cases spelled with
    | nil => exact ends.nearest_ne (.inl rfl)
    | cons p spelled => exact Kind.noConfusion
  rw [List.append_assoc, pathLexemes, List.cons_append]
  refine yields_expectName.bind fun m hm => (yields_pathRest noDot).bind fun ms hms => ?_
  cases spelled with
  | nil =>
    refine .check_bind (ends.atArraySuffix.bind fun b hb => ?_)
    have noArguments : (nearest rest == .lBracket && !b) = false := by
      by_cases hrest : nearest rest = .lBracket
      · rw [hb hrest, Bool.not_true, Bool.and_false]
      · rw [beq_false_of_ne hrest, Bool.false_and]
    show Yields (if (nearest rest == .lBracket && !b) = true then _ else _) rest _ rest
    rw [noArguments, if_neg (by decide)]
    exact .pure (alikeShape_named hm hms rfl)
  | cons p spelled =>
    obtain ⟨hp, -⟩ := hargs p List.mem_cons_self
    have opened : argumentLexemes ((p :: spelled).map Prod.snd) ++ rest = .bare .lBracket ::
        (p.2 ++ (commaFirst (spelled.map Prod.snd) ++ .bare .rBracket :: rest)) := by
      rw [← commaSeparated_cons]
      simp [argumentLexemes]
    have noBang : nearest (commaFirst (spelled.map Prod.snd) ++ .bare .rBracket :: rest) ≠ .bang := by
      cases spelled <;> exact Kind.noConfusion
    rw [opened]
    refine .check_bind ((yields_atArraySuffix_false hp noBang).bind fun b hb => ?_)
    rw [hb, ← commaSeparated_cons]
    refine .advance_bind fun _ _ => (hargs.list (.inr rfl)).bind fun ns hns => .pure ?_
    exact alikeShape_named hm hms hns

theorem yields_tupleType (helements : ReadsTypes inner spelled) :
    Yields (baseType inner)
      (.bare .lParen :: (commaSeparated (spelled.map Prod.snd) ++ .bare .rParen :: rest))
      (AlikeShape (.tupleType (spelled.map Prod.fst))) rest := by
  refine .kind_bind (.advance_bind fun _ _ => (helements.list (.inl rfl)).bind fun ns hns => .pure ?_)
  exact congrArg Shape.tupleType hns

/-- A function type, given how what stands behind its parameters is read. -/
theorem yields_funcType {result : Option Node} (hparams : ReadsTypes inner spelled)
    (hresult : Yields (optionalAfter .arrow inner.type) ls
      (fun m => m.map Node.skeleton = result.map Node.skeleton) rest) :
    Yields (baseType inner)
      (.bare .kwFunc :: .bare .lParen :: (commaSeparated (spelled.map Prod.snd) ++ .bare .rParen :: ls))
      (AlikeShape (.funcType (spelled.map Prod.fst) result)) rest := by
  refine .kind_bind (.advance_bind fun _ _ => .expect_bind fun _ _ => ?_)
  refine (hparams.list (.inl rfl)).bind fun ns hns => hresult.bind fun m hm => .pure ?_
  show Shape.funcType (ns.map Node.skeleton) (m.map Node.skeleton) =
    .funcType ((spelled.map Prod.fst).map Node.skeleton) (result.map Node.skeleton)
  rw [hns, hm]

theorem yields_noResult (hrest : nearest rest ≠ .arrow) :
    Yields (optionalAfter .arrow inner.type) rest (fun m => m.map Node.skeleton = none) rest :=
  .eat_bind_of_ne hrest (.pure rfl)

theorem yields_result (hx : Yields inner.type (ls ++ rest) (Alike x) rest) :
    Yields (optionalAfter .arrow inner.type) (.bare .arrow :: (ls ++ rest))
      (fun m => m.map Node.skeleton = some x.skeleton) rest := by
  refine .eat_bind (hx.bind fun n hn => .pure ?_)
  exact congrArg some hn

theorem yields_pointee {isConst : Bool} (spells : SpellsType .any x ls)
    (hx : Yields inner.type (ls ++ rest) (Alike x) rest) :
    Yields (pointee inner) (constLexemes isConst ++ (ls ++ rest)) (AlikeShape (.pointer isConst x))
      rest := by
  have shape {n : Node} (hn : Alike x n) : AlikeShape (.pointer isConst x) (.pointer isConst n) :=
    congrArg (Shape.pointer isConst) hn
  cases isConst with
  | false => exact .eat_bind_of_ne (spells.nearest_ne rfl rest) (hx.bind fun n hn => .pure (shape hn))
  | true => exact .eat_bind (hx.bind fun n hn => .pure (shape hn))

theorem yields_pointer {isConst : Bool} (spells : SpellsType .any x ls)
    (hx : Yields inner.type (ls ++ rest) (Alike x) rest) :
    Yields (baseType inner) (.bare .amp :: (constLexemes isConst ++ (ls ++ rest)))
      (AlikeShape (.pointer isConst x)) rest :=
  .kind_bind (.advance_bind fun _ _ => yields_pointee spells hx)

/-- The joined tokens of two pointers are taken apart. -/
theorem yields_pointers {id : NodeId} {range : Range} {isConst : Bool} (spells : SpellsType .any x ls)
    (hx : Yields inner.type (ls ++ rest) (Alike x) rest) :
    Yields (baseType inner) (.bare .ampAmp :: (constLexemes isConst ++ (ls ++ rest)))
      (AlikeShape (.pointer false ⟨id, range, none, .pointer isConst x⟩)) rest := by
  refine .kind_bind (.advance_bind fun _ _ => .here_bind fun start => ?_)
  refine (yields_pointee spells hx).bind fun shape hshape => ?_
  have closed : Yields (close start shape) rest (Alike ⟨id, range, none, .pointer isConst x⟩) rest :=
    .close_alike hshape
  refine closed.bind fun n hn => .pure ?_
  exact congrArg (Shape.pointer false) hn

/-! ### Layers -/

/-- The type is read back before `rest`. An operand is followed up to the loop over its suffixes. -/
def ReadsType (inner : Rules) (e : Node) (ls rest : List Lexeme) : TypeLayer → Prop
  | .operand => ∀ (start : Range) (good : Node → Prop) (out : List Lexeme),
    (∀ n, Alike e n → Yields (repeating n (typeSuffixStep inner start)) rest good out) →
      Yields (baseType inner >>= fun base => close start base >>= typeSuffixes inner start) (ls ++ rest)
        good out
  | .any => Yields (typeRule inner) (ls ++ rest) (Alike e) rest

/-- A type of the layer is whole before these lexemes. -/
def EndsType : TypeLayer → List Lexeme → Prop
  | .operand, rest => EndsOperand rest
  | .any, rest => extendsType (nearest rest) = false

/-- With as many levels as the type is high, it is read back. -/
def ReadsTypeWithin (layer : TypeLayer) (e : Node) (ls : List Lexeme) : Prop :=
  ∀ (levels : Nat) (rest : List Lexeme), e.height ≤ levels → EndsType layer rest →
    ReadsType (Rules.within levels) e ls rest layer

theorem readsType_base {id : NodeId} {range : Range} {shape : Shape Node}
    (h : Yields (baseType inner) (ls ++ rest) (AlikeShape shape) rest) :
    ReadsType inner ⟨id, range, none, shape⟩ ls rest .operand := by
  intro start good out next
  exact h.bind fun _ hshape => Yields.bind (.close_alike hshape) next

theorem ReadsType.any (h : ReadsType inner e ls rest .operand)
    (ends : extendsType (nearest rest) = false) : ReadsType inner e ls rest .any :=
  .here_bind fun start => h start _ _ fun _ hn => yields_typeSuffix_done ends hn

theorem ReadsTypeWithin.reads {levels : Nat} (low : x.height < levels)
    (h : ReadsTypeWithin .any x ls) (ends : extendsType (nearest rest) = false) :
    Yields (Rules.within levels).type (ls ++ rest) (Alike x) rest := by
  obtain ⟨levels, rfl⟩ := Nat.exists_eq_add_one_of_ne_zero (Nat.ne_zero_of_lt low)
  exact Yields.nested (h levels rest (by omega) ends)

theorem readsTypes_of_parts {id : NodeId} {range : Range} {shape : Shape Node} {levels : Nat}
    (low : (Node.mk id range none shape).height ≤ levels)
    (parts : ∀ x ∈ spelled.map Prod.fst, x ∈ shape.toList)
    (spells : ∀ p ∈ spelled, SpellsType .any p.1 p.2)
    (h : ∀ p ∈ spelled, ReadsTypeWithin .any p.1 p.2) : ReadsTypes (Rules.within levels) spelled := by
  intro p hp
  have lower := height_lt_of_part low (parts p.1 (List.mem_map_of_mem hp))
  exact ⟨spells p hp, fun rest ends => ReadsTypeWithin.reads lower (h p hp) ends⟩

/-- Every spelling of a type is read back. -/
theorem readsType_of_spells {layer : TypeLayer} (h : SpellsType layer e ls) :
    ReadsTypeWithin layer e ls := by
  -- A part in brackets, behind a pointer or behind an arrow is one level deeper; the type before a
  -- suffix is not.
  induction h with
  | prim hk => exact fun levels rest low ends => readsType_base (yields_prim hk)
  | @named id range head path args hhead hpath hargs ih =>
    intro levels rest low ends
    have inner := readsTypes_of_parts low (fun _ hx => hx) hargs ih
    exact readsType_base (.kind_bind (yields_namedType inner ends))
  | @tuple id range elements helements ih =>
    intro levels rest low ends
    have inner := readsTypes_of_parts low (fun _ hx => hx) helements ih
    apply readsType_base
    rw [List.cons_append, List.append_assoc]
    exact yields_tupleType inner
  | @func id range params hparams ih =>
    intro levels rest low ends
    have inner := readsTypes_of_parts low (fun _ hx => List.mem_append_left _ hx) hparams ih
    apply readsType_base
    rw [List.cons_append, List.cons_append, List.append_assoc]
    exact yields_funcType inner (yields_noResult (ends.nearest_ne (.inr rfl)))
  | @optional id range x ls _ ih =>
    intro levels rest low ends start good out next
    have lower := height_lt_of_part low (List.mem_singleton_self x)
    rw [List.append_assoc]
    refine ih levels _ lower.le (.inr (.inl rfl)) start good out fun n hn => ?_
    exact yields_optionalSuffix hn next
  | @array id range x ls _ ih =>
    intro levels rest low ends start good out next
    have lower := height_lt_of_part low List.mem_cons_self
    rw [List.append_assoc]
    refine ih levels _ lower.le (.inr (.inr ⟨_, rest, .unsized, rfl⟩)) start good out fun n hn => ?_
    exact yields_arraySuffix hn yields_arraySize_none next
  | @sizedArray id sizeId range sizeRange x ls value _ hvalue ih =>
    intro levels rest low ends start good out next
    have lower := height_lt_of_part low List.mem_cons_self
    have lowSize := height_lt_of_part low (List.mem_cons_of_mem x (List.mem_singleton_self _))
    have layered : Layered .any ⟨sizeId, sizeRange, none, .int value⟩ :=
      .ofBinary (.ofPrefixed (.ofSuffixed (.simple (.int hvalue))))
    have size := ReadsBackWithin.readsInner lowSize layered (readsBack_of_layered layered)
    rw [List.append_assoc]
    refine ih levels _ lower.le (.inr (.inr ⟨_, rest, .sized value, rfl⟩)) start good out fun n hn => ?_
    exact yields_arraySuffix hn (yields_arraySize size) next
  | ofOperand _ ih =>
    intro levels rest low ends
    exact (ih levels rest low (.inl ends)).any ends
  | @funcReturning id range params x ls hparams _ ih ihx =>
    intro levels rest low ends
    have inner := readsTypes_of_parts low (fun _ hx => List.mem_append_left _ hx) hparams ih
    have lower : x.height < levels := height_lt_of_part low (by simp [Shape.toList])
    refine ReadsType.any (readsType_base ?_) ends
    simp only [List.cons_append, List.append_assoc]
    exact yields_funcType inner (yields_result (ReadsTypeWithin.reads lower ihx ends))
  | @pointer id range isConst x ls hx ih =>
    intro levels rest low ends
    have lower := height_lt_of_part low (List.mem_singleton_self x)
    refine ReadsType.any (readsType_base ?_) ends
    rw [List.cons_append, List.append_assoc]
    exact yields_pointer hx (ReadsTypeWithin.reads lower ih ends)
  | @pointers id outerId range outerRange isConst x ls hx ih =>
    intro levels rest low ends
    have lowInner := height_lt_of_part low (List.mem_singleton_self _)
    have lower := height_lt_of_part lowInner.le (List.mem_singleton_self x)
    refine ReadsType.any (readsType_base ?_) ends
    rw [List.cons_append, List.append_assoc]
    exact yields_pointers hx (ReadsTypeWithin.reads lower ih ends)

/-- A type that is not too high is read back from every spelling, up to identities and ranges; nothing is
    reported and nothing is left over. -/
theorem type_inverts_spelling (h : SpellsType .any e ls) (low : e.height ≤ 255) (id : Nat)
    (name : String) :
    ∃ n t, type (State.start (.ofSource (.ofText id name (spaced ls)))) = .ok n t ∧
      n.skeleton = e.skeleton ∧ t.ahead = [] ∧ t.kind = .eof ∧ t.log.toList = [] := by
  have reads : Yields type (ls ++ []) (Alike e) [] :=
    ReadsTypeWithin.reads (Nat.lt_succ_of_le low) (readsType_of_spells h) rfl
  have seen := State.Sees.start (TokenStream.ofSource_spaced h.proper id name)
  obtain ⟨n, t, hrun, hn, ht⟩ := reads _ (by rwa [List.append_nil])
  exact ⟨n, t, hrun, hn, List.map_eq_nil_iff.mp ht.lexemes, ht.kind, ht.quiet⟩

/-- The tree of `& & const m . T [ u8 [ 3 ] ? ]`. -/
def pointerToPointer : Node :=
  ⟨0, .nowhere, none, .pointer false ⟨0, .nowhere, none, .pointer true
    ⟨0, .nowhere, none, .named ⟨"m", .nowhere⟩ [⟨"T", .nowhere⟩]
      [⟨0, .nowhere, none, .optional ⟨0, .nowhere, none, .arrayType ⟨0, .nowhere, none, .prim .tyU8⟩
        (some ⟨0, .nowhere, none, .int 3⟩)⟩⟩]⟩⟩⟩

/-- Its lexemes with the two pointers joined. -/
def pointerToPointerLexemes : List Lexeme :=
  [.bare .ampAmp, .bare .kwConst, .name "m", .bare .dot, .name "T", .bare .lBracket, .bare .tyU8,
    .bare .lBracket, .int 3, .bare .rBracket, .bare .question, .bare .rBracket]

theorem type_inverts_spelling_pointers :
    SpellsType .any pointerToPointer pointerToPointerLexemes ∧
      spaced pointerToPointerLexemes = "&& const m . T [ u8 [ 3 ] ? ]" ∧
      ∃ n t, type (State.start (.ofSource (.ofText 0 "main" (spaced pointerToPointerLexemes)))) =
          .ok n t ∧
        n.skeleton = pointerToPointer.skeleton ∧ t.ahead = [] ∧ t.kind = .eof ∧
        t.log.toList = [] := by
  have bytes : SpellsType .any ⟨0, .nowhere, none, .optional ⟨0, .nowhere, none,
      .arrayType ⟨0, .nowhere, none, .prim .tyU8⟩ (some ⟨0, .nowhere, none, .int 3⟩)⟩⟩
      [.bare .tyU8, .bare .lBracket, .int 3, .bare .rBracket, .bare .question] :=
    .ofOperand (.optional (.sizedArray (.prim rfl) (by decide)))
  have generic : SpellsType .operand ⟨0, .nowhere, none, .named _ _ ([(_, _)].map Prod.fst)⟩
      (pathLexemes ⟨"m", .nowhere⟩ [⟨"T", .nowhere⟩] ++ argumentLexemes ([(_, _)].map Prod.snd)) :=
    .named (by decide) (by decide) (List.forall_mem_singleton.mpr bytes)
  have spells : SpellsType .any pointerToPointer pointerToPointerLexemes := .pointers (.ofOperand generic)
  exact ⟨spells, by decide, type_inverts_spelling spells (by decide) 0 "main"⟩

end BraceLang.Grammar
