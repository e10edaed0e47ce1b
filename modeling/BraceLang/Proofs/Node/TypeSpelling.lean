import BraceLang.Proofs.Node.Spelling

/-! How a type is spelled. Only a type that ends with its own last token can have a suffix: after a
    pointer or the result of a function type, the suffix would belong to what stands last. -/

namespace BraceLang

/-- Which types may stand at a place. -/
inductive TypeLayer where
  /-- Those that a suffix may follow. -/
  | operand
  /-- All. -/
  | any

/-- The spelling of the names after the first of a dotted path. -/
def pathRestLexemes (path : List Ident) : List Lexeme :=
  path.flatMap fun n => [.bare .dot, .name n.text]

/-- The spelling of a dotted path. -/
def pathLexemes (head : Ident) (path : List Ident) : List Lexeme :=
  .name head.text :: pathRestLexemes path

/-- The spelling of the arguments of a generic, given the spellings of each. -/
def argumentLexemes : List (List Lexeme) → List Lexeme
  | [] => []
  | args => .bare .lBracket :: (commaSeparated args ++ [.bare .rBracket])

/-- The spelling of `const`, where it stands. -/
def constLexemes (isConst : Bool) : List Lexeme := if isConst then [.bare .kwConst] else []

/-- The types that may stand at a place, not linked to anything, and how each can be spelled. The parts of
    a list are given with their spellings. -/
inductive SpellsType : TypeLayer → Node → List Lexeme → Prop where
  | prim {id : NodeId} {range : Range} {k : Kind} (hk : k.roles.primitive = true) :
    SpellsType .operand ⟨id, range, none, .prim k⟩ [.bare k]
  | named {id : NodeId} {range : Range} {head : Ident} {path : List Ident}
    {args : List (Node × List Lexeme)} (hhead : isName head.text = true)
    (hpath : ∀ n ∈ path, isName n.text = true) (hargs : ∀ p ∈ args, SpellsType .any p.1 p.2) :
    SpellsType .operand ⟨id, range, none, .named head path (args.map Prod.fst)⟩
      (pathLexemes head path ++ argumentLexemes (args.map Prod.snd))
  | tuple {id : NodeId} {range : Range} {elements : List (Node × List Lexeme)}
    (helements : ∀ p ∈ elements, SpellsType .any p.1 p.2) :
    SpellsType .operand ⟨id, range, none, .tupleType (elements.map Prod.fst)⟩
      (.bare .lParen :: (commaSeparated (elements.map Prod.snd) ++ [.bare .rParen]))
  | func {id : NodeId} {range : Range} {params : List (Node × List Lexeme)}
    (hparams : ∀ p ∈ params, SpellsType .any p.1 p.2) :
    SpellsType .operand ⟨id, range, none, .funcType (params.map Prod.fst) none⟩
      (.bare .kwFunc :: .bare .lParen :: (commaSeparated (params.map Prod.snd) ++ [.bare .rParen]))
  | optional {id : NodeId} {range : Range} {x : Node} {ls : List Lexeme}
    (hx : SpellsType .operand x ls) :
    SpellsType .operand ⟨id, range, none, .optional x⟩ (ls ++ [.bare .question])
  | array {id : NodeId} {range : Range} {x : Node} {ls : List Lexeme} (hx : SpellsType .operand x ls) :
    SpellsType .operand ⟨id, range, none, .arrayType x none⟩ (ls ++ [.bare .lBracket, .bare .rBracket])
  | sizedArray {id sizeId : NodeId} {range sizeRange : Range} {x : Node} {ls : List Lexeme}
    {value : Nat} (hx : SpellsType .operand x ls) (hvalue : value ≤ maxInteger) :
    SpellsType .operand ⟨id, range, none, .arrayType x (some ⟨sizeId, sizeRange, none, .int value⟩)⟩
      (ls ++ [.bare .lBracket, .int value, .bare .rBracket])
  | ofOperand {n : Node} {ls : List Lexeme} (h : SpellsType .operand n ls) : SpellsType .any n ls
  | funcReturning {id : NodeId} {range : Range} {params : List (Node × List Lexeme)} {x : Node}
    {ls : List Lexeme} (hparams : ∀ p ∈ params, SpellsType .any p.1 p.2) (hx : SpellsType .any x ls) :
    SpellsType .any ⟨id, range, none, .funcType (params.map Prod.fst) (some x)⟩
      (.bare .kwFunc :: .bare .lParen ::
        (commaSeparated (params.map Prod.snd) ++ .bare .rParen :: .bare .arrow :: ls))
  | pointer {id : NodeId} {range : Range} {isConst : Bool} {x : Node} {ls : List Lexeme}
    (hx : SpellsType .any x ls) :
    SpellsType .any ⟨id, range, none, .pointer isConst x⟩ (.bare .amp :: (constLexemes isConst ++ ls))
  /-- The tokens of a pointer to a pointer may be joined. -/
  | pointers {id outerId : NodeId} {range outerRange : Range} {isConst : Bool} {x : Node}
    {ls : List Lexeme} (hx : SpellsType .any x ls) :
    SpellsType .any
      ⟨outerId, outerRange, none, .pointer false ⟨id, range, none, .pointer isConst x⟩⟩
      (.bare .ampAmp :: (constLexemes isConst ++ ls))

theorem Lexeme.Proper.of_primitive {k : Kind} (h : k.roles.primitive = true) :
    (Lexeme.bare k).Proper := by
  have spelled : k ∈ Kind.keywords := by
    revert h
    cases k <;> decide
  exact .word (List.mem_cons_of_mem _ spelled)

namespace AllProper

theorem path {head : Ident} {path : List Ident} (hhead : isName head.text = true)
    (hpath : ∀ n ∈ path, isName n.text = true) : AllProper (pathLexemes head path) := by
  refine cons (.name hhead) fun l hl => ?_
  obtain ⟨n, hn, hl⟩ := List.mem_flatMap.mp hl
  exact cons (.symbol (by decide)) (cons (.name (hpath n hn)) nil) l hl

theorem arguments {args : List (List Lexeme)} (h : ∀ ls ∈ args, AllProper ls) :
    AllProper (argumentLexemes args) := by
  cases args with
  | nil => exact nil
  | cons ls args => exact bracketed (by decide) (by decide) (commaSeparated h)

theorem const {isConst : Bool} : AllProper (constLexemes isConst) := by
  cases isConst with
  | false => exact nil
  | true => exact cons (.word (by decide)) nil

end AllProper

namespace SpellsType

variable {layer : TypeLayer} {n : Node} {ls : List Lexeme}

theorem proper (h : SpellsType layer n ls) : AllProper ls := by
  induction h with
  | prim hk => exact .cons (.of_primitive hk) .nil
  | named hhead hpath _ ih =>
    exact (AllProper.path hhead hpath).append (.arguments (List.forall_mem_map.mpr ih))
  | tuple _ ih =>
    exact .bracketed (by decide) (by decide) (.commaSeparated (List.forall_mem_map.mpr ih))
  | func _ ih =>
    exact .cons (.word (by decide))
      (.bracketed (by decide) (by decide) (.commaSeparated (List.forall_mem_map.mpr ih)))
  | optional _ ih => exact ih.between (.symbol (by decide)) .nil
  | array _ ih => exact ih.between (.symbol (by decide)) (.cons (.symbol (by decide)) .nil)
  | sizedArray _ hvalue ih =>
    exact ih.between (.symbol (by decide)) (.cons (.int hvalue) (.cons (.symbol (by decide)) .nil))
  | ofOperand _ ih => exact ih
  | funcReturning _ _ ih ihx =>
    refine .cons (.word (by decide)) (.cons (.symbol (by decide)) ?_)
    exact (AllProper.commaSeparated (List.forall_mem_map.mpr ih)).between (.symbol (by decide))
      (.cons (.symbol (by decide)) ihx)
  | pointer _ ih | pointers _ ih => exact .cons (.symbol (by decide)) (AllProper.const.append ih)

/-- Whether the spelling of a type can start with a token of this kind. -/
def starts (k : Kind) : Bool :=
  k.roles.primitive || k ∈ [Kind.name, .lParen, .kwFunc, .amp, .ampAmp]

theorem nearest_starts (h : SpellsType layer n ls) (rest : List Lexeme) :
    starts (nearest (ls ++ rest)) = true := by
  induction h generalizing rest with
  | prim hk =>
    show starts _ = true
    rw [starts, Bool.or_eq_true]
    exact .inl hk
  | named | tuple | func | funcReturning | pointer | pointers => rfl
  | optional _ ih | array _ ih | sizedArray _ _ ih =>
    rw [List.append_assoc]
    exact ih _
  | ofOperand _ ih => exact ih rest

theorem nearest_ne (h : SpellsType layer n ls) {k : Kind} (hk : starts k = false)
    (rest : List Lexeme) : nearest (ls ++ rest) ≠ k := by
  rintro rfl
  cases hk.symm.trans (h.nearest_starts rest)

/-- A name at the start of a type is not that of a macro. -/
theorem second_ne_bang {rest : List Lexeme} (h : SpellsType layer n ls)
    (hrest : nearest rest ≠ .bang) (hname : nearest (ls ++ rest) = .name) :
    nearest ((ls ++ rest).drop 1) ≠ .bang := by
  induction h generalizing rest with
  | @prim _ _ k hk =>
    cases show k = .name from hname
    cases hk
  | @named _ _ _ path args =>
    rcases path with _ | ⟨n, path⟩
    · rcases args with _ | ⟨p, args⟩
      · exact hrest
      · exact Kind.noConfusion
    · exact Kind.noConfusion
  | tuple | func | funcReturning | pointer | pointers => cases hname
  | optional _ ih | array _ ih | sizedArray _ _ ih =>
    rw [List.append_assoc] at hname ⊢
    exact ih Kind.noConfusion hname
  | ofOperand _ ih => exact ih hrest hname

end SpellsType

end BraceLang
