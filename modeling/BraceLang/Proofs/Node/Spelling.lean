import BraceLang.Proofs.Node.Skeleton
import BraceLang.Proofs.Token.Lexeme

/-! How an expression is spelled, and which trees can be spelled without further parentheses: in each, the
    operands of an operator belong to the layer that the operator leaves to them. -/

namespace BraceLang

/-! ### Spellings -/

/-- Lists with a comma between each two. -/
def commaSeparated (xss : List (List Lexeme)) : List Lexeme := [Lexeme.bare .comma].intercalate xss

/-- How a construct is spelled, given the spellings of its parts. A comma stands after the element of a
    tuple that has no other. Constructs that are no operators, lists or words have no spelling here. -/
def Shape.lexemes : Shape (List Lexeme) → List Lexeme
  | name text => [.name text]
  | int value => [.int value]
  | bool value => [.bool value]
  | null => [.bare .nullLit]
  | group x => .bare .lParen :: (x ++ [.bare .rParen])
  | tuple [x] => .bare .lParen :: (x ++ [.bare .comma, .bare .rParen])
  | tuple xs => .bare .lParen :: (commaSeparated xs ++ [.bare .rParen])
  | array xs => .bare .lBracket :: (commaSeparated xs ++ [.bare .rBracket])
  | postfixed op x => x ++ [.bare op]
  | member x y isOptional => x ++ .bare (if isOptional then .questionDot else .dot) :: y
  | call x args => x ++ .bare .lParen :: (commaSeparated args ++ [.bare .rParen])
  | index x args => x ++ .bare .lBracket :: (commaSeparated args ++ [.bare .rBracket])
  | prefixed op x => .bare op :: x
  | binary op x y => x ++ .bare op :: y
  | assign op x y => x ++ .bare op :: y
  | ternary c t f => c ++ .bare .question :: (t.getD [] ++ .bare .colon :: f)
  | _ => []

namespace Node

/-- The lexemes that spell an expression. -/
def lexemes (n : Node) : List Lexeme := n.fold fun _ parts => (parts.map (·.2)).lexemes

theorem lexemes_eq (n : Node) : n.lexemes = (n.shape.map lexemes).lexemes := by
  rw [lexemes, fold_eq, Shape.map_map]
  rfl

/-- An expression as text, with a blank between each two of its lexemes. -/
def spelling (n : Node) : String := spaced n.lexemes

end Node

/-! ### Layers -/

/-- The layers of expressions, from the tightest to the loosest. -/
inductive Layer where
  /-- A primary with its suffixes. -/
  | suffixed
  /-- An operand with its prefix operators. -/
  | prefixed
  /-- Operands joined by operators that bind tighter than `limit`. -/
  | binary (limit : Nat)
  /-- Any expression. -/
  | any

/-- A name or an integer, which can also stand after a point. -/
inductive Node.Simple : Node → Prop where
  | name {id : NodeId} {range : Range} {text : String} (h : isName text = true) :
    Simple ⟨id, range, none, .name text⟩
  | int {id : NodeId} {range : Range} {value : Nat} (h : value ≤ maxInteger) :
    Simple ⟨id, range, none, .int value⟩

/-- The expressions of a layer: made of words, operators and lists, not linked to anything, and with
    each operand in the layer that its operator leaves to it. -/
inductive Layered : Layer → Node → Prop where
  | simple {n : Node} (h : n.Simple) : Layered .suffixed n
  | bool {id : NodeId} {range : Range} (value : Bool) : Layered .suffixed ⟨id, range, none, .bool value⟩
  | null {id : NodeId} {range : Range} : Layered .suffixed ⟨id, range, none, .null⟩
  | group {id : NodeId} {range : Range} {x : Node} (hx : Layered .any x) :
    Layered .suffixed ⟨id, range, none, .group x⟩
  | tuple {id : NodeId} {range : Range} {xs : List Node} (hxs : ∀ x ∈ xs, Layered .any x) :
    Layered .suffixed ⟨id, range, none, .tuple xs⟩
  | array {id : NodeId} {range : Range} {xs : List Node} (hxs : ∀ x ∈ xs, Layered .any x) :
    Layered .suffixed ⟨id, range, none, .array xs⟩
  | postfixed {id : NodeId} {range : Range} {op : Kind} {x : Node} (hop : op.roles.postfixOp = true)
    (hx : Layered .suffixed x) : Layered .suffixed ⟨id, range, none, .postfixed op x⟩
  | member {id : NodeId} {range : Range} {x y : Node} {isOptional : Bool} (hx : Layered .suffixed x)
    (hy : y.Simple) : Layered .suffixed ⟨id, range, none, .member x y isOptional⟩
  | call {id : NodeId} {range : Range} {x : Node} {args : List Node} (hx : Layered .suffixed x)
    (hargs : ∀ y ∈ args, Layered .any y) : Layered .suffixed ⟨id, range, none, .call x args⟩
  | index {id : NodeId} {range : Range} {x : Node} {args : List Node} (hx : Layered .suffixed x)
    (hargs : ∀ y ∈ args, Layered .any y) : Layered .suffixed ⟨id, range, none, .index x args⟩
  | ofSuffixed {n : Node} (h : Layered .suffixed n) : Layered .prefixed n
  | prefixed {id : NodeId} {range : Range} {op : Kind} {x : Node} (hop : op.roles.prefixOp = true)
    (hx : Layered .prefixed x) : Layered .prefixed ⟨id, range, none, .prefixed op x⟩
  | ofPrefixed {limit : Nat} {n : Node} (h : Layered .prefixed n) : Layered (.binary limit) n
  /-- Operators that bind equally tightly group to the left. -/
  | binary {limit : Nat} {id : NodeId} {range : Range} {op : Kind} {x y : Node}
    (hop : op.roles.binary = true) (tight : op.precedence < limit)
    (hx : Layered (.binary (op.precedence + 1)) x) (hy : Layered (.binary op.precedence) y) :
    Layered (.binary limit) ⟨id, range, none, .binary op x y⟩
  | ofBinary {n : Node} (h : Layered (.binary Kind.loosest) n) : Layered .any n
  | assign {id : NodeId} {range : Range} {op : Kind} {x y : Node} (hop : op.roles.assignment = true)
    (hx : Layered (.binary Kind.loosest) x) (hy : Layered .any y) :
    Layered .any ⟨id, range, none, .assign op x y⟩
  | ternary {id : NodeId} {range : Range} {c f : Node} {t : Option Node}
    (hc : Layered (.binary Kind.loosest) c) (ht : ∀ x ∈ t, Layered .any x) (hf : Layered .any f) :
    Layered .any ⟨id, range, none, .ternary c t f⟩

/-! ### What a spelling is made of -/

theorem Lexeme.Proper.of_operator {op : Kind} (h : (op.roles.prefixOp || op.roles.postfixOp ||
    op.roles.binary || op.roles.assignment) = true) : (Lexeme.bare op).Proper := by
  have spelled : op ∈ Kind.keywords ∨ op ∈ Kind.symbols := by
    revert h
    cases op <;> decide
  rcases spelled with h | h
  · exact .word (List.mem_cons_of_mem _ h)
  · exact .symbol h

/-- Every one of the lexemes is proper. -/
def AllProper (ls : List Lexeme) : Prop := ∀ l ∈ ls, l.Proper

namespace AllProper

variable {l : Lexeme} {ls ms : List Lexeme}

theorem nil : AllProper [] := List.forall_mem_nil _

theorem cons (hl : l.Proper) (hls : AllProper ls) : AllProper (l :: ls) :=
  List.forall_mem_cons.mpr ⟨hl, hls⟩

theorem append (hls : AllProper ls) (hms : AllProper ms) : AllProper (ls ++ ms) :=
  List.forall_mem_append.mpr ⟨hls, hms⟩

theorem between {k : Kind} (hls : AllProper ls) (hk : (Lexeme.bare k).Proper) (hms : AllProper ms) :
    AllProper (ls ++ .bare k :: ms) := hls.append (.cons hk hms)

theorem bracketed {opening closing : Kind} (ho : opening ∈ Kind.symbols) (hc : closing ∈ Kind.symbols)
    (hls : AllProper ls) : AllProper (.bare opening :: (ls ++ [.bare closing])) :=
  .cons (.symbol ho) (hls.between (.symbol hc) .nil)

theorem commaSeparated {xss : List (List Lexeme)} (h : ∀ xs ∈ xss, AllProper xs) :
    AllProper (commaSeparated xss) := by
  cases xss with
  | nil => exact .nil
  | cons xs xss =>
    obtain ⟨hxs, hxss⟩ := List.forall_mem_cons.mp h
    rw [BraceLang.commaSeparated, intercalate_cons]
    refine hxs.append fun l hl => ?_
    obtain ⟨ys, hys, hl⟩ := List.mem_flatMap.mp hl
    exact cons (.symbol (by decide)) (hxss ys hys) l hl

theorem tuple {xs : List Node} (h : ∀ x ∈ xs, AllProper x.lexemes) :
    AllProper (Shape.tuple (xs.map Node.lexemes)).lexemes := by
  rcases xs with _ | ⟨x, _ | ⟨y, xs⟩⟩
  · exact bracketed (by decide) (by decide) nil
  · have hx := h x (List.mem_singleton_self x)
    exact .cons (.symbol (by decide)) (hx.between (.symbol (by decide))
      (.cons (.symbol (by decide)) .nil))
  · exact bracketed (by decide) (by decide) (commaSeparated (List.forall_mem_map.mpr h))

end AllProper

theorem Node.Simple.proper {n : Node} (h : n.Simple) : AllProper n.lexemes := by
  cases h with
  | name h => exact List.forall_mem_singleton.mpr (.name h)
  | int h => exact List.forall_mem_singleton.mpr (.int h)

theorem Layered.proper {layer : Layer} {n : Node} (h : Layered layer n) : AllProper n.lexemes := by
  induction h with
  | simple h => exact h.proper
  | ofSuffixed _ ih | ofPrefixed _ ih | ofBinary _ ih => exact ih
  | bool value => exact .cons (.bool value) .nil
  | null => exact .cons (.word List.mem_cons_self) .nil
  | group _ ih =>
    rw [Node.lexemes_eq]
    exact ih.bracketed (by decide) (by decide)
  | tuple _ ih =>
    rw [Node.lexemes_eq]
    exact .tuple ih
  | array _ ih =>
    rw [Node.lexemes_eq]
    exact .bracketed (by decide) (by decide) (.commaSeparated (List.forall_mem_map.mpr ih))
  | postfixed hop _ ih =>
    rw [Node.lexemes_eq]
    exact ih.between (.of_operator (by simp [hop])) .nil
  | @member _ _ _ _ isOptional _ hy ih =>
    rw [Node.lexemes_eq]
    cases isOptional with
    | false => exact ih.between (.symbol (by decide)) hy.proper
    | true => exact ih.between (.symbol (by decide)) hy.proper
  | call _ _ ih ihargs =>
    rw [Node.lexemes_eq]
    exact ih.append (.bracketed (by decide) (by decide)
      (.commaSeparated (List.forall_mem_map.mpr ihargs)))
  | index _ _ ih ihargs =>
    rw [Node.lexemes_eq]
    exact ih.append (.bracketed (by decide) (by decide)
      (.commaSeparated (List.forall_mem_map.mpr ihargs)))
  | prefixed hop _ ih =>
    rw [Node.lexemes_eq]
    exact .cons (.of_operator (by simp [hop])) ih
  | binary hop _ _ _ ihx ihy =>
    rw [Node.lexemes_eq]
    exact ihx.between (.of_operator (by simp [hop])) ihy
  | assign hop _ _ ihx ihy =>
    rw [Node.lexemes_eq]
    exact ihx.between (.of_operator (by simp [hop])) ihy
  | @ternary _ _ _ _ t _ _ _ ihc iht ihf =>
    rw [Node.lexemes_eq]
    have middle : AllProper ((t.map Node.lexemes).getD []) := by
      cases t with
      | none => exact .nil
      | some x => exact iht x rfl
    exact ihc.between (.symbol (by decide)) (middle.between (.symbol (by decide)) ihf)

/-! ### How a spelling starts -/

/-- The kind of the first lexeme, or that of the end. -/
def nearest : List Lexeme → Kind
  | [] => .eof
  | l :: _ => l.kind

@[simp] theorem nearest_cons (l : Lexeme) (ls : List Lexeme) : nearest (l :: ls) = l.kind := rfl

/-- Whether the spelling of a primary can start with a token of this kind. -/
def Kind.startsPrimary (k : Kind) : Bool := k ∈ [name, intLit, boolLit, nullLit, lParen, lBracket]

namespace Layered

variable {layer : Layer} {n : Node}

theorem nearest_starts (h : Layered layer n) (rest : List Lexeme) :
    (nearest (n.lexemes ++ rest)).startsPrimary = true ∨
      layer ≠ .suffixed ∧ (nearest (n.lexemes ++ rest)).roles.prefixOp = true := by
  induction h generalizing rest with
  | simple h => cases h <;> exact .inl rfl
  | bool | null | group | array => exact .inl rfl
  | @tuple _ _ xs => rcases xs with _ | ⟨x, _ | ⟨y, xs⟩⟩ <;> exact .inl rfl
  | ofSuffixed _ ih => exact .inl ((ih rest).resolve_right fun h => h.1 rfl)
  | ofPrefixed _ ih | ofBinary _ ih => exact (ih rest).imp_right fun h => ⟨Layer.noConfusion, h.2⟩
  | prefixed hop _ ih => exact .inr ⟨Layer.noConfusion, hop⟩
  | postfixed _ _ ih | member _ _ ih | call _ _ ih | index _ _ ih =>
    rw [Node.lexemes_eq]
    simp only [Shape.map, Shape.lexemes, List.append_assoc]
    exact ih _
  | binary _ _ _ _ ih | assign _ _ _ ih | ternary _ _ _ ih =>
    rw [Node.lexemes_eq]
    simp only [Shape.map, Shape.lexemes, List.append_assoc]
    exact (ih _).imp_right fun h => ⟨Layer.noConfusion, h.2⟩

theorem nearest_ne (h : Layered layer n) {k : Kind} (hk : k.startsPrimary = false)
    (hop : k.roles.prefixOp = false) (rest : List Lexeme) : nearest (n.lexemes ++ rest) ≠ k := by
  rintro rfl
  rcases h.nearest_starts rest with h | h
  · cases hk.symm.trans h
  · cases hop.symm.trans h.2

/-- A primary with its suffixes starts with no prefix operator. -/
theorem nearest_prefixOp (h : Layered .suffixed n) (rest : List Lexeme) :
    (nearest (n.lexemes ++ rest)).roles.prefixOp = false := by
  have starts := (h.nearest_starts rest).resolve_right fun h => h.1 rfl
  revert starts
  generalize nearest (n.lexemes ++ rest) = k
  cases k <;> decide

end Layered

end BraceLang
