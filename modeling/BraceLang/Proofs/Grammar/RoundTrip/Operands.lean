import BraceLang.Proofs.Grammar.Yields

/-! Operands read back from their spellings: lists, parentheses, primaries and suffixes, given that the
    expressions inside them are read back one level deeper. -/

namespace BraceLang.Grammar

variable {inner : Rules} {e x y n : Node} {xs : List Node} {ls rest out : List Lexeme}
  {good : Node → Prop} {start : Range}

/-- The two trees differ in identities and ranges only. -/
def Alike (e n : Node) : Prop := n.skeleton = e.skeleton

/-- The parts of the two constructs differ in identities and ranges only. -/
def AlikeShape (s t : Shape Node) : Prop :=
  (t.map Node.skeleton).unplaced = (s.map Node.skeleton).unplaced

theorem AlikeShape.node {id id' : NodeId} {range range' : Range} {shape shape' : Shape Node}
    (h : AlikeShape shape shape') :
    Alike ⟨id, range, none, shape⟩ ⟨id', range', none, shape'⟩ := by
  rw [Alike, Node.skeleton_eq, Node.skeleton_eq]
  simp only [show (shape'.map Node.skeleton).unplaced = (shape.map Node.skeleton).unplaced from h]

/-- A construct with parts that were read back is closed to a node that was. -/
theorem Yields.close_alike {id : NodeId} {range start : Range} {shape shape' : Shape Node}
    (h : AlikeShape shape shape') : Yields (Grammar.close start shape') ls
      (Alike ⟨id, range, none, shape⟩) ls := by
  refine Yields.close.mono ?_
  rintro n ⟨id', range', rfl⟩
  exact h.node

/-! ### Where a layer ends -/

/-- Whether a token of this kind goes on with a primary or its suffixes. -/
def extendsOperand (k : Kind) : Bool :=
  k ∈ [.plusPlus, .minusMinus, .dot, .questionDot, .lBracket, .bang, .lParen, .kwAs, .lBrace]

/-- Whether an expression of the layer is whole before a token of this kind. -/
def EndsAt : Layer → Kind → Prop
  | .suffixed, k => k ≠ .lBrace
  | .prefixed, k => extendsOperand k = false
  -- the right operands inside are read with a limit below this one, so one less is loose enough
  | .binary limit, k =>
    extendsOperand k = false ∧ (k.roles.binary = true → limit ≤ k.precedence + 1)
  | .any, k =>
    extendsOperand k = false ∧ k.roles.binary = false ∧ k.roles.assignment = false ∧
      k.roles.ternary = false

instance (layer : Layer) (k : Kind) : Decidable (EndsAt layer k) :=
  match layer with
  | .suffixed => inferInstanceAs (Decidable (k ≠ .lBrace))
  | .prefixed => inferInstanceAs (Decidable (extendsOperand k = false))
  | .binary limit =>
    inferInstanceAs (Decidable (extendsOperand k = false ∧
      (k.roles.binary = true → limit ≤ k.precedence + 1)))
  | .any =>
    inferInstanceAs (Decidable (extendsOperand k = false ∧ k.roles.binary = false ∧
      k.roles.assignment = false ∧ k.roles.ternary = false))

/-! ### Lists -/

/-- The expression is read back one level deeper, whatever it ends before. -/
structure ReadsInner (inner : Rules) (x : Node) : Prop where
  layered : Layered .any x
  reads : ∀ rest, EndsAt .any (nearest rest) →
    Yields inner.expression (x.lexemes ++ rest) (Alike x) rest

/-- Spellings that each follow a comma. -/
def commaFirst (xss : List (List Lexeme)) : List Lexeme := xss.flatMap (.bare .comma :: ·)

theorem commaFirst_cons (xs : List Lexeme) (xss : List (List Lexeme)) (ls : List Lexeme) :
    commaFirst (xs :: xss) ++ ls = .bare .comma :: (xs ++ (commaFirst xss ++ ls)) := by
  simp [commaFirst]

theorem commaSeparated_cons (xs : List Lexeme) (xss : List (List Lexeme)) (ls : List Lexeme) :
    commaSeparated (xs :: xss) ++ ls = xs ++ (commaFirst xss ++ ls) := by
  rw [commaSeparated, intercalate_cons, List.append_assoc]
  rfl

/-- The expressions `ns` are read back from the spellings of `xs`. -/
def AllAlike (xs ns : List Node) : Prop := ns.map Node.skeleton = xs.map Node.skeleton

theorem AllAlike.push {items : Array Node} (h : AllAlike xs items.toList) (hn : Alike x n) :
    AllAlike (xs ++ [x]) (items.push n).toList := by
  rw [AllAlike, Array.toList_push, List.map_append, List.map_append, h, List.map_singleton,
    List.map_singleton, hn]

theorem length_lt_append_cons (ls : List Lexeme) (l : Lexeme) (rest : List Lexeme) :
    rest.length < (ls ++ l :: rest).length := by
  rw [List.length_append, List.length_cons]
  omega

theorem endsAt_comma : EndsAt .any .comma := by decide

theorem endsAt_colon : EndsAt .any .colon := by decide

/-- An item of a list is read back from `ls`, both before a comma and before the closing token. -/
structure ReadsItem (item : Parser Node) (closing : Kind) (x : Node) (ls : List Lexeme) : Prop where
  opens : ∀ rest, nearest (ls ++ rest) ≠ closing
  reads : ∀ k, k = .comma ∨ k = closing → ∀ rest,
    Yields item (ls ++ .bare k :: rest) (Alike x) (.bare k :: rest)

section Lists

variable {item : Parser Node} {closing : Kind} {spelled : List (Node × List Lexeme)}

theorem yields_listStep {ys : List Node} {items : Array Node} (hitems : AllAlike ys items.toList)
    (hx : ReadsItem item closing x ls) :
    Yields (listStep closing item items) (ls ++ .bare .comma :: rest)
      (fun r => ∃ ns, r = .yield ns ∧ AllAlike (ys ++ [x]) ns.toList) rest := by
  refine .check_bind ?_
  rw [beq_false_of_ne (hx.opens _), if_neg (by decide)]
  refine (hx.reads .comma (.inl rfl) rest).bind fun n hn => ?_
  exact .eat_bind (.pure ⟨_, rfl, hitems.push hn⟩)

variable (hclosing : closing ≠ .comma)
include hclosing

theorem yields_listStep_last {ys : List Node} {items : Array Node} (hitems : AllAlike ys items.toList)
    (hx : ReadsItem item closing x ls) :
    Yields (listStep closing item items) (ls ++ .bare closing :: rest)
      (fun r => ∃ ns, r = .done ns ∧ AllAlike (ys ++ [x]) ns.toList) (.bare closing :: rest) := by
  refine .check_bind ?_
  rw [beq_false_of_ne (hx.opens _), if_neg (by decide)]
  refine (hx.reads closing (.inr rfl) rest).bind fun n hn => ?_
  exact .eat_bind_of_ne hclosing (.pure ⟨_, rfl, hitems.push hn⟩)

/-- The items of a list up to its closing token, after those that `items` holds. -/
theorem yields_elements {ys : List Node} {items : Array Node} (hitems : AllAlike ys items.toList)
    (hx : ReadsItem item closing x ls) (hxs : ∀ p ∈ spelled, ReadsItem item closing p.1 p.2) :
    Yields (repeating items (listStep closing item))
      (ls ++ (commaFirst (spelled.map Prod.snd) ++ .bare closing :: rest))
      (fun ns => AllAlike (ys ++ x :: spelled.map Prod.fst) ns.toList) (.bare closing :: rest) := by
  induction spelled generalizing x ls ys items with
  | nil => exact .repeating_done (yields_listStep_last hclosing hitems hx)
  | cons z zs ih =>
    obtain ⟨hz, hzs⟩ := List.forall_mem_cons.mp hxs
    rw [List.map_cons, commaFirst_cons]
    refine (yields_listStep hitems hx).repeating_yield (length_lt_append_cons _ _ _) fun ns hns => ?_
    have tail := ih hns hz hzs
    rwa [List.append_assoc] at tail

theorem yields_items (hxs : ∀ p ∈ spelled, ReadsItem item closing p.1 p.2) :
    Yields (list closing item) (commaSeparated (spelled.map Prod.snd) ++ .bare closing :: rest)
      (AllAlike (spelled.map Prod.fst)) rest := by
  refine .withStructLiterals ?_
  have items : Yields (repeating #[] (listStep closing item))
      (commaSeparated (spelled.map Prod.snd) ++ .bare closing :: rest)
      (fun ns => AllAlike (spelled.map Prod.fst) ns.toList) (.bare closing :: rest) := by
    cases spelled with
    | nil =>
      apply Yields.repeating_done
      refine .check_bind ?_
      rw [show nearest _ = closing from rfl, beq_self_eq_true, if_pos rfl]
      exact .pure ⟨_, rfl, rfl⟩
    | cons p spelled =>
      obtain ⟨hp, hspelled⟩ := List.forall_mem_cons.mp hxs
      rw [List.map_cons, commaSeparated_cons]
      exact yields_elements hclosing rfl hp hspelled
  refine items.bind fun ns hns => ?_
  exact .expect_bind fun _ _ => .pure hns

end Lists

section Expressions

variable {closing : Kind} (hclosing : closing = .rParen ∨ closing = .rBracket)
include hclosing

theorem endsAt_closing : EndsAt .any closing := by rcases hclosing with rfl | rfl <;> decide

theorem ReadsInner.nearest_ne (h : ReadsInner inner x) (rest : List Lexeme) :
    nearest (x.lexemes ++ rest) ≠ closing := by
  rcases hclosing with rfl | rfl
  · exact h.layered.nearest_ne rfl rfl rest
  · exact h.layered.nearest_ne rfl rfl rest

theorem ReadsInner.item (h : ReadsInner inner x) :
    ReadsItem inner.expression closing x x.lexemes := by
  refine ⟨h.nearest_ne hclosing, ?_⟩
  rintro k (rfl | rfl) rest
  · exact h.reads _ endsAt_comma
  · exact h.reads _ (endsAt_closing hclosing)

theorem yields_list (hxs : ∀ x ∈ xs, ReadsInner inner x) :
    Yields (list closing inner.expression)
      (commaSeparated (xs.map Node.lexemes) ++ .bare closing :: rest) (AllAlike xs) rest := by
  have separate : closing ≠ .comma := by rcases hclosing with rfl | rfl <;> decide
  have items : ∀ p ∈ xs.map fun x => (x, x.lexemes), ReadsItem inner.expression closing p.1 p.2 :=
    List.forall_mem_map.mpr fun x hx => (hxs x hx).item hclosing
  simpa [Function.comp_def] using yields_items separate items

end Expressions

/-! ### Parentheses -/

theorem yields_elementStep {ys : List Node} {items : Array Node} (hitems : AllAlike ys items.toList)
    (hx : ReadsInner inner x) (ends : EndsAt .any (nearest rest)) :
    Yields (elementStep inner items) (.bare .comma :: (x.lexemes ++ rest))
      (fun r => ∃ ns, r = .yield ns ∧ AllAlike (ys ++ [x]) ns.toList) rest := by
  refine .eat_bind (.check_bind ?_)
  rw [beq_false_of_ne (hx.nearest_ne (.inl rfl) _), if_pos (by decide)]
  exact (hx.reads rest ends).bind fun n hn => .pure ⟨_, rfl, hitems.push hn⟩

/-- A comma before the closing parenthesis adds no element. -/
theorem yields_elementStep_last {items : Array Node} {comma : List Lexeme}
    (hcomma : comma = [] ∨ comma = [.bare .comma]) :
    Yields (elementStep inner items) (comma ++ .bare .rParen :: rest) (· = .done items)
      (.bare .rParen :: rest) := by
  rcases hcomma with rfl | rfl
  · exact .eat_bind_of_ne Kind.noConfusion (.check_bind (.pure rfl))
  · exact .eat_bind (.check_bind (.pure rfl))

theorem yields_elementSteps {ys : List Node} {items : Array Node} (hitems : AllAlike ys items.toList)
    (hxs : ∀ x ∈ xs, ReadsInner inner x) {comma : List Lexeme}
    (hcomma : comma = [] ∨ comma = [.bare .comma]) :
    Yields (repeating items (elementStep inner)) (commaFirst (xs.map Node.lexemes) ++ (comma ++ .bare .rParen :: rest))
      (fun ns => AllAlike (ys ++ xs) ns.toList) (.bare .rParen :: rest) := by
  induction xs generalizing ys items with
  | nil =>
    refine .repeating_done ((yields_elementStep_last hcomma).mono fun r hr => ⟨_, hr, ?_⟩)
    rwa [List.append_nil]
  | cons x xs ih =>
    obtain ⟨hx, hxs⟩ := List.forall_mem_cons.mp hxs
    rw [List.map_cons, commaFirst_cons]
    have ends : EndsAt .any (nearest (commaFirst (xs.map Node.lexemes) ++ (comma ++ .bare .rParen :: rest))) := by
      rcases xs with _ | ⟨y, ys⟩
      · rcases hcomma with rfl | rfl
        · exact endsAt_closing (.inl rfl)
        · exact endsAt_comma
      · exact endsAt_comma
    refine (yields_elementStep hitems hx ends).repeating_yield ?_ fun ns hns => ?_
    · simp only [List.length_cons, List.length_append]
      omega
    · have tail := ih hns hxs
      rwa [List.append_assoc] at tail

theorem yields_moreElements (hn : Alike x n) (hxs : ∀ x ∈ xs, ReadsInner inner x) {comma : List Lexeme}
    (hcomma : comma = [] ∨ comma = [.bare .comma]) :
    Yields (moreElements inner n) (commaFirst (xs.map Node.lexemes) ++ (comma ++ .bare .rParen :: rest))
      (AllAlike (x :: xs)) (.bare .rParen :: rest) := by
  have first : AllAlike [x] #[n].toList := congrArg (fun m => [m]) hn
  exact (yields_elementSteps first hxs hcomma).bind fun _ hns => .pure hns

theorem yields_parens_empty :
    Yields (insideParens inner) (.bare .rParen :: rest) (AlikeShape (.tuple [])) rest :=
  .check_bind (.expect_bind fun _ _ => .pure rfl)

theorem yields_parens_group (hx : ReadsInner inner x) :
    Yields (insideParens inner) (x.lexemes ++ .bare .rParen :: rest) (AlikeShape (.group x)) rest := by
  refine .check_bind ?_
  rw [beq_false_of_ne (hx.nearest_ne (.inl rfl) _), if_neg (by decide)]
  refine (hx.reads (.bare .rParen :: rest) (endsAt_closing (.inl rfl))).bind fun n hn => ?_
  have more : Yields (moreElements inner n) (commaFirst [] ++ ([] ++ .bare .rParen :: rest))
      (AllAlike [x]) (.bare .rParen :: rest) :=
    yields_moreElements hn (List.forall_mem_nil _) (.inl rfl)
  refine .check_bind (more.bind fun _ _ => .expect_bind fun _ _ => .pure ?_)
  show Shape.group n.skeleton = .group x.skeleton
  rw [hn]

/-- A comma after the first element makes a tuple. -/
theorem yields_parens_tuple (hx : ReadsInner inner x) (hxs : ∀ x ∈ xs, ReadsInner inner x)
    {comma : List Lexeme} (hcomma : comma = [] ∨ comma = [.bare .comma])
    (isTuple : nearest (commaFirst (xs.map Node.lexemes) ++ (comma ++ .bare .rParen :: rest)) = .comma) :
    Yields (insideParens inner) (x.lexemes ++ (commaFirst (xs.map Node.lexemes) ++ (comma ++ .bare .rParen :: rest)))
      (AlikeShape (.tuple (x :: xs))) rest := by
  refine .check_bind ?_
  rw [beq_false_of_ne (hx.nearest_ne (.inl rfl) _), if_neg (by decide)]
  refine (hx.reads _ (by rw [isTuple]; exact endsAt_comma)).bind fun n hn => ?_
  refine .check_bind ((yields_moreElements hn hxs hcomma).bind fun ns hns => ?_)
  rw [isTuple]
  refine .expect_bind fun _ _ => .pure ?_
  show Shape.tuple (ns.map Node.skeleton) = .tuple ((x :: xs).map Node.skeleton)
  rw [hns]

theorem yields_parenthesized {id : NodeId} {range : Range} {shape : Shape Node}
    (h : Yields (insideParens inner) ls (AlikeShape shape) rest) :
    Yields (parenthesized inner) (.bare .lParen :: ls) (Alike ⟨id, range, none, shape⟩) rest := by
  refine .here_bind fun start => .expect_bind fun _ _ => ?_
  exact h.withStructLiterals.bind fun _ hshape => .close_alike hshape

theorem yields_tuple {id : NodeId} {range : Range} (hxs : ∀ x ∈ xs, ReadsInner inner x) :
    Yields (parenthesized inner) ((Shape.tuple (xs.map Node.lexemes)).lexemes ++ rest)
      (Alike ⟨id, range, none, .tuple xs⟩) rest := by
  rcases xs with _ | ⟨x, _ | ⟨y, xs⟩⟩
  · exact yields_parenthesized yields_parens_empty
  · have hx := hxs x (List.mem_singleton_self x)
    have spelled : (Shape.tuple ([x].map Node.lexemes)).lexemes ++ rest = .bare .lParen ::
        (x.lexemes ++ (commaFirst [] ++ ([.bare .comma] ++ .bare .rParen :: rest))) := by
      simp [Shape.lexemes, commaFirst]
    rw [spelled]
    exact yields_parenthesized (yields_parens_tuple hx (List.forall_mem_nil _) (.inr rfl) rfl)
  · obtain ⟨hx, hxs⟩ := List.forall_mem_cons.mp hxs
    have spelled : (Shape.tuple ((x :: y :: xs).map Node.lexemes)).lexemes ++ rest = .bare .lParen ::
        (x.lexemes ++ (commaFirst ((y :: xs).map Node.lexemes) ++ ([] ++ .bare .rParen :: rest))) := by
      rw [List.nil_append, ← commaSeparated_cons]
      simp [Shape.lexemes]
    rw [spelled]
    exact yields_parenthesized (yields_parens_tuple hx hxs (.inl rfl) rfl)

/-! ### Primaries -/

theorem yields_literal {id : NodeId} {range : Range} {l : Lexeme} {shape : Shape Node}
    (hl : l.kind ∈ [Kind.intLit, .boolLit, .nullLit])
    (hshape : literal ⟨l.kind, .nowhere, l.payload⟩ = shape) :
    Yields (primary inner) (l :: rest) (Alike ⟨id, range, none, shape⟩) rest := by
  have reads : Yields (do let token ← advance; node (literal token) token.range) (l :: rest)
      (Alike ⟨id, range, none, shape⟩) rest := by
    refine .advance_bind fun token htoken => Yields.node.mono ?_
    rintro n ⟨id', rfl⟩
    subst htoken hshape
    exact AlikeShape.node rfl
  refine .here_bind fun start => .kind_bind ?_
  rw [nearest_cons]
  simp only [List.mem_cons, List.not_mem_nil, or_false] at hl
  rcases hl with hl | hl | hl
  all_goals
    rw [hl]
    exact reads

theorem yields_atStructLiteral : Yields atStructLiteral ls (fun _ => True) ls := by
  intro s hs
  have run : ∃ b, atStructLiteral s = .ok b s := by
    rw [atStructLiteral, peek_bind]
    generalize s.peek 1 = k
    split <;> exact ⟨_, rfl⟩
  obtain ⟨b, hb⟩ := run
  exact ⟨b, s, hb, trivial, hs⟩

theorem yields_name {id : NodeId} {range : Range} {text : String} (hrest : nearest rest ≠ .lBrace) :
    Yields (primary inner) (.name text :: rest) (Alike ⟨id, range, none, .name text⟩) rest := by
  refine .here_bind fun _ => .kind_bind ?_
  refine .here_bind fun _ => .advance_bind fun token htoken => ?_
  refine Yields.node.bind ?_
  rintro n ⟨id', rfl⟩
  refine .get_bind fun s => .check_bind ?_
  refine yields_atStructLiteral.bind fun b _ => ?_
  rw [beq_false_of_ne hrest, Bool.and_false, Bool.false_and, if_neg (by decide)]
  exact .pure (AlikeShape.node (congrArg Shape.name (Token.text_of_lexeme htoken)))

theorem yields_simple (h : x.Simple) (hrest : nearest rest ≠ .lBrace) :
    Yields (primary inner) (x.lexemes ++ rest) (Alike x) rest := by
  cases h with
  | name => exact yields_name hrest
  | int => exact yields_literal (by simp [Lexeme.int]) rfl

theorem yields_array {id : NodeId} {range : Range} (hxs : ∀ x ∈ xs, ReadsInner inner x) :
    Yields (primary inner)
      (.bare .lBracket :: (commaSeparated (xs.map Node.lexemes) ++ .bare .rBracket :: rest))
      (Alike ⟨id, range, none, .array xs⟩) rest := by
  refine .here_bind fun start => .kind_bind (.advance_bind fun _ _ => ?_)
  refine (yields_list (.inr rfl) hxs).bind fun ns hns => .close_alike ?_
  show Shape.array (ns.map Node.skeleton) = .array (xs.map Node.skeleton)
  rw [hns]

/-! ### Suffixes -/

theorem yields_memberName (h : x.Simple) : Yields memberName (x.lexemes ++ rest) (Alike x) rest := by
  cases h with
  | name =>
    refine .kind_bind (.advance_bind fun token htoken => Yields.node.mono ?_)
    rintro n ⟨id, rfl⟩
    exact AlikeShape.node (congrArg Shape.name (Token.text_of_lexeme htoken))
  | int =>
    refine .kind_bind (.advance_bind fun token htoken => Yields.node.mono ?_)
    rintro n ⟨id, rfl⟩
    exact AlikeShape.node (congrArg Shape.int (Token.int_of_lexeme htoken))

/-- The suffix that is read back makes the operand `n` into a construct like `shape`. -/
def ReadsSuffix (inner : Rules) (n : Node) (ls : List Lexeme) (shape : Shape Node)
    (rest : List Lexeme) : Prop :=
  Yields (suffix? inner n) ls (fun r => ∃ shape', r = some shape' ∧ AlikeShape shape shape') rest

theorem readsSuffix_postfixed {op : Kind} (hop : op.roles.postfixOp = true) (hn : Alike x n) :
    ReadsSuffix inner n (.bare op :: rest) (.postfixed op x) rest := by
  have shape : AlikeShape (.postfixed op x) (.postfixed op n) := congrArg (Shape.postfixed op) hn
  have hop : op = .plusPlus ∨ op = .minusMinus := by
    revert hop
    cases op <;> decide
  rcases hop with rfl | rfl
  · exact .kind_bind (.advance_bind fun _ _ => .pure ⟨_, rfl, shape⟩)
  · exact .kind_bind (.advance_bind fun _ _ => .pure ⟨_, rfl, shape⟩)

theorem readsSuffix_member {isOptional : Bool} (hn : Alike x n) (hy : y.Simple) :
    ReadsSuffix inner n (.bare (if isOptional then .questionDot else .dot) :: (y.lexemes ++ rest))
      (.member x y isOptional) rest := by
  have shape {m : Node} (hm : Alike y m) :
      AlikeShape (.member x y isOptional) (.member n m isOptional) := by
    show Shape.member n.skeleton m.skeleton isOptional = .member x.skeleton y.skeleton isOptional
    rw [hn, hm]
  cases isOptional with
  | false =>
    refine .kind_bind (.advance_bind fun _ _ => ?_)
    exact (yields_memberName hy).bind fun m hm => .pure ⟨_, rfl, shape hm⟩
  | true =>
    refine .kind_bind (.advance_bind fun _ _ => ?_)
    exact (yields_memberName hy).bind fun m hm => .pure ⟨_, rfl, shape hm⟩

theorem readsSuffix_call (hn : Alike x n) (hxs : ∀ x ∈ xs, ReadsInner inner x) :
    ReadsSuffix inner n
      (.bare .lParen :: (commaSeparated (xs.map Node.lexemes) ++ [.bare .rParen] ++ rest))
      (.call x xs) rest := by
  rw [List.append_assoc]
  refine .kind_bind (.advance_bind fun _ _ => ?_)
  refine (yields_list (.inl rfl) hxs).bind fun ns hns => .pure ⟨_, rfl, ?_⟩
  show Shape.call n.skeleton (ns.map Node.skeleton) = .call x.skeleton (xs.map Node.skeleton)
  rw [hn, hns]

theorem readsSuffix_index (hn : Alike x n) (hxs : ∀ x ∈ xs, ReadsInner inner x) :
    ReadsSuffix inner n
      (.bare .lBracket :: (commaSeparated (xs.map Node.lexemes) ++ [.bare .rBracket] ++ rest))
      (.index x xs) rest := by
  rw [List.append_assoc]
  refine .kind_bind (.advance_bind fun _ _ => ?_)
  refine (yields_list (.inr rfl) hxs).bind fun ns hns => .pure ⟨_, rfl, ?_⟩
  show Shape.index n.skeleton (ns.map Node.skeleton) = .index x.skeleton (xs.map Node.skeleton)
  rw [hn, hns]

/-- The loop over suffixes goes on after a suffix that is read back. -/
theorem yields_suffixStep {id : NodeId} {range : Range} {shape : Shape Node}
    (h : ReadsSuffix inner n ls shape rest) (shorter : rest.length < ls.length)
    (next : ∀ m, Alike ⟨id, range, none, shape⟩ m →
      Yields (repeating m (suffixStep inner start)) rest good out) :
    Yields (repeating n (suffixStep inner start)) ls good out := by
  refine Yields.repeating_yield ?_ shorter next
  refine h.bind ?_
  rintro _ ⟨shape', rfl, hshape⟩
  exact (Yields.close_alike hshape).bind fun m hm => .pure ⟨m, rfl, hm⟩

theorem yields_suffixStep_done (hrest : extendsOperand (nearest rest) = false) (hn : Alike e n) :
    Yields (repeating n (suffixStep inner start)) rest (Alike e) rest := by
  have none : Yields (suffix? inner n) rest (· = none) rest := by
    refine .kind_bind ?_
    generalize nearest rest = k at hrest
    split
    case h_9 => exact .pure rfl
    all_goals cases hrest
  refine .repeating_done (none.bind ?_)
  rintro _ rfl
  exact .pure ⟨n, rfl, hn⟩

end BraceLang.Grammar
