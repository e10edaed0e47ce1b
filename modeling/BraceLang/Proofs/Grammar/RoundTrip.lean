import BraceLang.Proofs.Grammar.RoundTrip.Operands
import BraceLang.Proofs.Token.Spelled

/-! Reading an expression back from its spelling. Each layer of the grammar has tokens before which it
    has to stop (`EndsAt`). The rules of a layer with a loop are followed from one operand to the next,
    so what is known of them is how the loop goes on after an operand (`ReadsBack`). -/

namespace BraceLang.Grammar

variable {inner : Rules} {e x y n : Node} {xs : List Node} {ls rest out : List Lexeme}
  {good : Node → Prop} {start : Range}

/-! ### Layers -/

/-- The rule of a layer reads the expression back before `rest`. Where the rule goes on in a loop, this
    says that it reads what the loop reads that goes on after the expression. -/
def ReadsBack (inner : Rules) (e : Node) (rest : List Lexeme) : Layer → Prop
  | .suffixed => ∀ (start : Range) (good : Node → Prop) (out : List Lexeme),
    (∀ n, Alike e n → Yields (repeating n (suffixStep inner start)) rest good out) →
      Yields (primary inner >>= fun n => repeating n (suffixStep inner start)) (e.lexemes ++ rest) good out
  | .prefixed => Yields (prefixed inner) (e.lexemes ++ rest) (Alike e) rest
  | .binary limit => ∀ (above : Nat), limit ≤ above →
    ∀ (start : Range) (good : Node → Prop) (out : List Lexeme),
    (∀ n, Alike e n → Yields (repeating n (binaryStep inner above start)) rest good out) →
      Yields (prefixed inner >>= fun n => repeating n (binaryStep inner above start)) (e.lexemes ++ rest)
        good out
  | .any => Yields (expressionRule inner) (e.lexemes ++ rest) (Alike e) rest

/-- A primary that is read back may have suffixes. -/
theorem readsBack_primary (h : Yields (primary inner) (e.lexemes ++ rest) (Alike e) rest) :
    ReadsBack inner e rest .suffixed := by
  intro start good out next
  exact h.bind next

theorem readsBack_group {id : NodeId} {range : Range} (hx : ReadsInner inner x) :
    ReadsBack inner ⟨id, range, none, .group x⟩ rest .suffixed := by
  apply readsBack_primary
  rw [Node.lexemes_eq]
  simp only [Shape.map, Shape.lexemes, List.cons_append, List.append_assoc, List.nil_append]
  exact .here_bind fun _ => .kind_bind (yields_parenthesized (yields_parens_group hx))

theorem readsBack_tuple {id : NodeId} {range : Range} (hxs : ∀ x ∈ xs, ReadsInner inner x) :
    ReadsBack inner ⟨id, range, none, .tuple xs⟩ rest .suffixed := by
  have opens : nearest ((Shape.tuple (xs.map Node.lexemes)).lexemes ++ rest) = .lParen := by
    rcases xs with _ | ⟨x, _ | ⟨y, xs⟩⟩ <;> rfl
  apply readsBack_primary
  rw [Node.lexemes_eq]
  refine .here_bind fun _ => .kind_bind ?_
  simp only [Shape.map, opens]
  exact yields_tuple hxs

theorem readsBack_array {id : NodeId} {range : Range} (hxs : ∀ x ∈ xs, ReadsInner inner x) :
    ReadsBack inner ⟨id, range, none, .array xs⟩ rest .suffixed := by
  apply readsBack_primary
  rw [Node.lexemes_eq]
  simp only [Shape.map, Shape.lexemes, List.cons_append, List.append_assoc, List.nil_append]
  exact yields_array hxs

/-- An operand that is read back goes on to be one with a suffix. -/
theorem readsBack_suffix {id : NodeId} {range : Range} {shape : Shape Node} {l : Lexeme}
    (hx : ReadsBack inner x (l :: (ls ++ rest)) .suffixed)
    (h : ∀ n, Alike x n → ReadsSuffix inner n (l :: (ls ++ rest)) shape rest)
    (spelled : (shape.map Node.lexemes).lexemes = x.lexemes ++ l :: ls) :
    ReadsBack inner ⟨id, range, none, shape⟩ rest .suffixed := by
  intro start good out next
  rw [Node.lexemes_eq, spelled, List.append_assoc, List.cons_append]
  refine hx start good out fun n hn => yields_suffixStep (h n hn) ?_ next
  rw [List.length_cons, List.length_append]
  omega

theorem readsBack_prefixed_of_suffixed (layered : Layered .suffixed e)
    (h : ReadsBack inner e rest .suffixed) (ends : EndsAt .prefixed (nearest rest)) :
    ReadsBack inner e rest .prefixed := by
  refine .kind_bind ?_
  rw [layered.nearest_prefixOp rest, if_neg (by decide)]
  exact .here_bind fun start => h start _ _ fun n hn => yields_suffixStep_done ends hn

theorem readsBack_prefixed {id : NodeId} {range : Range} {op : Kind} (hop : op.roles.prefixOp = true)
    (hx : Yields inner.unary (x.lexemes ++ rest) (Alike x) rest) :
    ReadsBack inner ⟨id, range, none, .prefixed op x⟩ rest .prefixed := by
  show Yields (prefixed inner) (.bare op :: (x.lexemes ++ rest)) _ rest
  refine .kind_bind ?_
  rw [show nearest (.bare op :: (x.lexemes ++ rest)) = op from rfl, if_pos hop]
  refine .here_bind fun start => .advance_bind fun _ _ => ?_
  refine hx.bind fun n hn => .close_alike ?_
  exact congrArg (Shape.prefixed op) hn

theorem readsBack_binary_of_prefixed {limit : Nat} (h : ReadsBack inner e rest .prefixed) :
    ReadsBack inner e rest (.binary limit) := by
  intro above _ start good out next
  exact h.bind next

/-- The loop over binary operators goes on after an operator and its right operand. -/
theorem yields_binaryStep {id : NodeId} {range : Range} {op : Kind} {above : Nat}
    (hop : op.roles.binary = true) (tight : op.precedence < above) (hn : Alike x n)
    (hy : Yields (inner.operand op.precedence) (y.lexemes ++ rest) (Alike y) rest)
    (next : ∀ m, Alike ⟨id, range, none, .binary op x y⟩ m →
      Yields (repeating m (binaryStep inner above start)) rest good out) :
    Yields (repeating n (binaryStep inner above start)) (.bare op :: (y.lexemes ++ rest)) good out := by
  refine Yields.repeating_yield (.kind_bind ?_) ?_ next
  · rw [show nearest (.bare op :: (y.lexemes ++ rest)) = op from rfl, hop, decide_eq_true tight,
      if_pos (by decide)]
    refine .advance_bind fun _ _ => hy.bind fun m hm => ?_
    refine Yields.bind (.close_alike ?_) fun m hm => .pure ⟨m, rfl, hm⟩
    show Shape.binary op n.skeleton m.skeleton = .binary op x.skeleton y.skeleton
    rw [hn, hm]
  · rw [List.length_cons, List.length_append]
    omega

theorem yields_binaryStep_done {limit : Nat} (hn : Alike e n)
    (ends : (nearest rest).roles.binary = true → limit ≤ (nearest rest).precedence) :
    Yields (repeating n (binaryStep inner limit start)) rest (Alike e) rest := by
  refine .repeating_done (.kind_bind ?_)
  rw [if_neg ?_]
  · exact .pure ⟨n, rfl, hn⟩
  · rw [Bool.and_eq_true, decide_eq_true_eq]
    rintro ⟨hop, tight⟩
    exact Nat.not_lt.mpr (ends hop) tight

theorem yields_binary {limit : Nat} (h : ReadsBack inner e rest (.binary limit))
    (ends : (nearest rest).roles.binary = true → limit ≤ (nearest rest).precedence) :
    Yields (binary inner limit) (e.lexemes ++ rest) (Alike e) rest :=
  .here_bind fun start => h limit (Nat.le_refl limit) start _ _ fun _ hn => yields_binaryStep_done hn ends

theorem readsBack_binary {id : NodeId} {range : Range} {op : Kind} {limit : Nat}
    (hop : op.roles.binary = true) (tight : op.precedence < limit)
    (hx : ReadsBack inner x (.bare op :: (y.lexemes ++ rest)) (.binary (op.precedence + 1)))
    (hy : Yields (inner.operand op.precedence) (y.lexemes ++ rest) (Alike y) rest) :
    ReadsBack inner ⟨id, range, none, .binary op x y⟩ rest (.binary limit) := by
  intro above hle start good out next
  show Yields _ ((x.lexemes ++ .bare op :: y.lexemes) ++ rest) good out
  rw [List.append_assoc, List.cons_append]
  refine hx above (by omega) start good out fun n hn => ?_
  exact yields_binaryStep hop (by omega) hn hy next

/-! ### Assignments and conditionals -/

theorem yields_assignment (h : Yields (binary inner Kind.loosest) ls (Alike e) rest)
    (ends : (nearest rest).roles.assignment = false) :
    Yields (assignment inner) ls (Alike e) rest := by
  refine .here_bind fun start => h.bind fun n hn => .kind_bind ?_
  rw [ends, if_neg (by decide)]
  exact .pure hn

theorem readsBack_any (h : Yields (assignment inner) (e.lexemes ++ rest) (Alike e) rest)
    (ends : (nearest rest).roles.ternary = false) : ReadsBack inner e rest .any := by
  refine .here_bind fun start => h.bind fun n hn => .kind_bind ?_
  rw [ends, if_neg (by decide)]
  exact .pure hn

theorem readsBack_assign {id : NodeId} {range : Range} {op : Kind} (hop : op.roles.assignment = true)
    (hx : Yields (binary inner Kind.loosest) (x.lexemes ++ .bare op :: (y.lexemes ++ rest)) (Alike x)
      (.bare op :: (y.lexemes ++ rest)))
    (hy : Yields inner.expression (y.lexemes ++ rest) (Alike y) rest)
    (ends : (nearest rest).roles.ternary = false) :
    ReadsBack inner ⟨id, range, none, .assign op x y⟩ rest .any := by
  refine readsBack_any ?_ ends
  show Yields _ ((x.lexemes ++ .bare op :: y.lexemes) ++ rest) _ rest
  rw [List.append_assoc, List.cons_append]
  refine .here_bind fun start => hx.bind fun n hn => .kind_bind ?_
  rw [show nearest (.bare op :: (y.lexemes ++ rest)) = op from rfl, if_pos hop]
  refine .advance_bind fun _ _ => hy.bind fun m hm => .close_alike ?_
  show Shape.assign op n.skeleton m.skeleton = .assign op x.skeleton y.skeleton
  rw [hn, hm]

theorem yields_middleBranch {t : Option Node} (ht : ∀ x ∈ t, ReadsInner inner x) :
    Yields (middleBranch inner) ((t.map Node.lexemes).getD [] ++ .bare .colon :: rest)
      (fun m => m.map Node.skeleton = t.map Node.skeleton) rest := by
  cases t with
  | none => exact .eat_bind (.pure rfl)
  | some x =>
    have hx := ht x rfl
    refine .eat_bind_of_ne (hx.layered.nearest_ne rfl rfl _) ?_
    refine (hx.reads (.bare .colon :: rest) endsAt_colon).bind fun n hn => ?_
    refine .expect_bind fun _ _ => .pure ?_
    exact congrArg some hn

theorem readsBack_ternary {id : NodeId} {range : Range} {t : Option Node}
    (hx : Yields (assignment inner) (x.lexemes ++ .bare .question :: ls) (Alike x)
      (.bare .question :: ls))
    (spelled : ls = (t.map Node.lexemes).getD [] ++ .bare .colon :: (y.lexemes ++ rest))
    (ht : ∀ x ∈ t, ReadsInner inner x)
    (hy : Yields inner.expression (y.lexemes ++ rest) (Alike y) rest) :
    ReadsBack inner ⟨id, range, none, .ternary x t y⟩ rest .any := by
  have whole : (Node.mk id range none (.ternary x t y)).lexemes ++ rest =
      x.lexemes ++ .bare .question :: ls := by
    rw [Node.lexemes_eq, spelled]
    simp [Shape.map, Shape.lexemes]
  show Yields _ _ _ _
  rw [whole]
  refine .here_bind fun start => hx.bind fun n hn => .kind_bind (.advance_bind fun _ _ => ?_)
  rw [spelled]
  refine (yields_middleBranch ht).bind fun m hm => hy.bind fun k hk => .close_alike ?_
  show Shape.ternary n.skeleton (m.map Node.skeleton) k.skeleton =
    .ternary x.skeleton (t.map Node.skeleton) y.skeleton
  rw [hn, hm, hk]

/-! ### Levels -/

/-- With as many levels as the expression is high, the rule of the layer reads it back. -/
def ReadsBackWithin (layer : Layer) (e : Node) : Prop :=
  ∀ (levels : Nat) (rest : List Lexeme), e.height ≤ levels → EndsAt layer (nearest rest) →
    ReadsBack (Rules.within levels) e rest layer

section Levels

variable {levels : Nat} (low : x.height < levels)
include low

theorem ReadsBackWithin.readsInner (layered : Layered .any x) (h : ReadsBackWithin .any x) :
    ReadsInner (Rules.within levels) x := by
  obtain ⟨levels, rfl⟩ := Nat.exists_eq_add_one_of_ne_zero (Nat.ne_zero_of_lt low)
  exact ⟨layered, fun rest ends => Yields.nested (h levels rest (by omega) ends)⟩

theorem ReadsBackWithin.unary (h : ReadsBackWithin .prefixed x)
    (ends : EndsAt .prefixed (nearest rest)) :
    Yields (Rules.within levels).unary (x.lexemes ++ rest) (Alike x) rest := by
  obtain ⟨levels, rfl⟩ := Nat.exists_eq_add_one_of_ne_zero (Nat.ne_zero_of_lt low)
  exact Yields.nested (h levels rest (by omega) ends)

theorem ReadsBackWithin.operand {limit : Nat} (h : ReadsBackWithin (.binary limit) x)
    (ends : EndsAt .prefixed (nearest rest))
    (tight : (nearest rest).roles.binary = true → limit ≤ (nearest rest).precedence) :
    Yields ((Rules.within levels).operand limit) (x.lexemes ++ rest) (Alike x) rest := by
  obtain ⟨levels, rfl⟩ := Nat.exists_eq_add_one_of_ne_zero (Nat.ne_zero_of_lt low)
  refine Yields.nested (yields_binary (h levels rest (by omega) ⟨ends, fun hop => ?_⟩) tight)
  exact Nat.le_succ_of_le (tight hop)

end Levels

theorem ReadsBackWithin.loosest {levels : Nat} (h : ReadsBackWithin (.binary Kind.loosest) x)
    (low : x.height ≤ levels) (ends : extendsOperand (nearest rest) = false)
    (noBinary : (nearest rest).roles.binary = false) :
    Yields (binary (Rules.within levels) Kind.loosest) (x.lexemes ++ rest) (Alike x) rest := by
  have never (p : Prop) (hop : (nearest rest).roles.binary = true) : p := by
    rw [noBinary] at hop
    cases hop
  exact yields_binary (h levels rest low ⟨ends, never _⟩) (never _)

theorem ne_lBrace_of_postfixOp {op : Kind} (h : op.roles.postfixOp = true) : op ≠ .lBrace := by
  rintro rfl
  cases h

theorem extendsOperand_of_binary {op : Kind} (h : op.roles.binary = true) :
    extendsOperand op = false := by
  revert h
  cases op <;> decide

theorem extendsOperand_of_assignment {op : Kind} (h : op.roles.assignment = true) :
    extendsOperand op = false ∧ op.roles.binary = false := by
  revert h
  cases op <;> decide

theorem height_lt_of_part {id : NodeId} {range : Range} {shape : Shape Node} {levels : Nat}
    (low : (Node.mk id range none shape).height ≤ levels) (hx : x ∈ shape.toList) :
    x.height < levels := by
  have part : x ∈ (Node.mk id range none shape).children := hx
  exact Nat.lt_of_lt_of_le (Node.height_lt_of_mem_children part) low

theorem readsInner_of_parts {id : NodeId} {range : Range} {shape : Shape Node} {levels : Nat}
    (low : (Node.mk id range none shape).height ≤ levels) (parts : ∀ x ∈ xs, x ∈ shape.toList)
    (layered : ∀ x ∈ xs, Layered .any x) (h : ∀ x ∈ xs, ReadsBackWithin .any x) :
    ∀ x ∈ xs, ReadsInner (Rules.within levels) x := by
  intro x hx
  have lower := height_lt_of_part low (parts x hx)
  exact ReadsBackWithin.readsInner lower (layered x hx) (h x hx)

/-- Every expression of a layer is read back. -/
theorem readsBack_of_layered {layer : Layer} (h : Layered layer e) : ReadsBackWithin layer e := by
  -- A part in brackets or right of an operator is one level deeper; the leftmost operand is not.
  induction h with
  | simple h => exact fun levels rest low ends => readsBack_primary (yields_simple h ends)
  | bool => exact fun levels rest low ends =>
      readsBack_primary (yields_literal (by simp [Lexeme.bool]) rfl)
  | null => exact fun levels rest low ends =>
      readsBack_primary (yields_literal (by simp [Lexeme.bare]) rfl)
  | @group id range x hx ih =>
    intro levels rest low ends
    have lower := height_lt_of_part low (List.mem_singleton_self x)
    exact readsBack_group (ReadsBackWithin.readsInner lower hx ih)
  | tuple hxs ih =>
    intro levels rest low ends
    exact readsBack_tuple (readsInner_of_parts low (fun _ hx => hx) hxs ih)
  | array hxs ih =>
    intro levels rest low ends
    exact readsBack_array (readsInner_of_parts low (fun _ hx => hx) hxs ih)
  | @postfixed id range op x hop _ ih =>
    intro levels rest low ends
    have lower := height_lt_of_part low (List.mem_singleton_self x)
    have target := ih levels (.bare op :: ([] ++ rest)) lower.le (ne_lBrace_of_postfixOp hop)
    exact readsBack_suffix target (fun n hn => readsSuffix_postfixed hop hn) rfl
  | @member id range x y isOptional _ hy ih =>
    intro levels rest low ends
    have lower := height_lt_of_part low List.mem_cons_self
    refine readsBack_suffix (ih levels _ lower.le ?_) (fun n hn => readsSuffix_member hn hy) rfl
    cases isOptional <;> exact Kind.noConfusion
  | @call id range x args _ hargs ih ihargs =>
    intro levels rest low ends
    have lower := height_lt_of_part low List.mem_cons_self
    have inner := readsInner_of_parts low (fun _ => List.mem_cons_of_mem x) hargs ihargs
    refine readsBack_suffix (ih levels _ lower.le ?_) (fun n hn => readsSuffix_call hn inner) rfl
    exact Kind.noConfusion
  | @index id range x args _ hargs ih ihargs =>
    intro levels rest low ends
    have lower := height_lt_of_part low List.mem_cons_self
    have inner := readsInner_of_parts low (fun _ => List.mem_cons_of_mem x) hargs ihargs
    refine readsBack_suffix (ih levels _ lower.le ?_) (fun n hn => readsSuffix_index hn inner) rfl
    exact Kind.noConfusion
  | ofSuffixed h ih =>
    intro levels rest low ends
    have noBrace : nearest rest ≠ .lBrace := by
      intro h
      rw [h] at ends
      cases ends
    exact readsBack_prefixed_of_suffixed h (ih levels rest low noBrace) ends
  | @prefixed id range op x hop _ ih =>
    intro levels rest low ends
    have lower := height_lt_of_part low (List.mem_singleton_self x)
    exact readsBack_prefixed hop (ReadsBackWithin.unary lower ih ends)
  | ofPrefixed _ ih =>
    exact fun levels rest low ends => readsBack_binary_of_prefixed (ih levels rest low ends.1)
  | @binary limit id range op x y hop tight _ _ ihx ihy =>
    intro levels rest low ends
    have lowx := height_lt_of_part low List.mem_cons_self
    have lowy := height_lt_of_part low (List.mem_cons_of_mem x (List.mem_singleton_self y))
    have lhs := ihx levels (.bare op :: (y.lexemes ++ rest)) lowx.le
      ⟨extendsOperand_of_binary hop, fun _ => Nat.le_refl _⟩
    -- the operator after the whole binds no tighter than `op`, so it ends the right operand too
    refine readsBack_binary hop tight lhs (ReadsBackWithin.operand lowy ihy ends.1 fun hb => ?_)
    have := ends.2 hb
    omega
  | ofBinary _ ih =>
    intro levels rest low ends
    obtain ⟨noSuffix, noBinary, noAssignment, noTernary⟩ := ends
    have whole := ReadsBackWithin.loosest ih low noSuffix noBinary
    exact readsBack_any (yields_assignment whole noAssignment) noTernary
  | @assign id range op x y hop _ hy ihx ihy =>
    intro levels rest low ends
    have lowx := height_lt_of_part low List.mem_cons_self
    have lowy := height_lt_of_part low (List.mem_cons_of_mem x (List.mem_singleton_self y))
    obtain ⟨noSuffix, noBinary⟩ := extendsOperand_of_assignment hop
    have value := (ReadsBackWithin.readsInner lowy hy ihy).reads rest ends
    refine readsBack_assign hop ?_ value ends.2.2.2
    exact ReadsBackWithin.loosest ihx lowx.le noSuffix noBinary
  | @ternary id range c f t _ ht hf ihc iht ihf =>
    intro levels rest low ends
    have lowc := height_lt_of_part low List.mem_cons_self
    have lowf : f.height < levels := height_lt_of_part low (by simp [Shape.toList])
    have middle : ∀ x ∈ t, ReadsInner (Rules.within levels) x := by
      intro x hx
      have lower : x.height < levels :=
        height_lt_of_part low (by simp [Shape.toList, Option.mem_def.mp hx])
      exact ReadsBackWithin.readsInner lower (ht x hx) (iht x hx)
    have last := (ReadsBackWithin.readsInner lowf hf ihf).reads rest ends
    have noSuffix : extendsOperand .question = false := by decide
    refine readsBack_ternary (yields_assignment ?_ rfl) rfl middle last
    exact ReadsBackWithin.loosest ihc lowc.le noSuffix rfl

/-- An expression that respects the layers and is not too high is read back from its spelling, up to
    identities and ranges; nothing is reported and nothing is left over. -/
theorem expression_inverts_spelling (h : Layered .any e) (low : e.height ≤ 255) (id : Nat)
    (name : String) :
    ∃ n t, expression (State.start (.ofSource (.ofText id name e.spelling))) = .ok n t ∧
      n.skeleton = e.skeleton ∧ t.ahead = [] ∧ t.kind = .eof ∧ t.log.toList = [] := by
  have inner : ReadsInner rules e :=
    ReadsBackWithin.readsInner (Nat.lt_succ_of_le low) h (readsBack_of_layered h)
  have seen := State.Sees.start (TokenStream.ofSource_spaced h.proper id name)
  obtain ⟨n, t, hrun, hn, ht⟩ := inner.reads [] (by decide) _ (by rwa [List.append_nil])
  exact ⟨n, t, hrun, hn, List.map_eq_nil_iff.mp ht.lexemes, ht.kind, ht.quiet⟩

/-- The tree of `a - b * 1 - ( c , )`. -/
def differences : Node :=
  ⟨0, .nowhere, none, .binary .minus
    ⟨0, .nowhere, none, .binary .minus ⟨0, .nowhere, none, .name "a"⟩
      ⟨0, .nowhere, none, .binary .star ⟨0, .nowhere, none, .name "b"⟩ ⟨0, .nowhere, none, .int 1⟩⟩⟩
    ⟨0, .nowhere, none, .tuple [⟨0, .nowhere, none, .name "c"⟩]⟩⟩

theorem expression_inverts_spelling_differences :
    differences.spelling = "a - b * 1 - ( c , )" ∧
      ∃ n t, expression (State.start (.ofSource (.ofText 0 "main" differences.spelling))) = .ok n t ∧
        n.skeleton = differences.skeleton ∧ t.ahead = [] ∧ t.kind = .eof ∧ t.log.toList = [] := by
  have name {text : String} (h : isName text = true) {limit : Nat} :
      Layered (.binary limit) ⟨0, .nowhere, none, .name text⟩ :=
    .ofPrefixed (.ofSuffixed (.simple (.name h)))
  have one {limit : Nat} : Layered (.binary limit) ⟨0, .nowhere, none, .int 1⟩ :=
    .ofPrefixed (.ofSuffixed (.simple (.int (by decide))))
  have tuple {limit : Nat} : Layered (.binary limit)
      ⟨0, .nowhere, none, .tuple [⟨0, .nowhere, none, .name "c"⟩]⟩ :=
    .ofPrefixed (.ofSuffixed (.tuple (List.forall_mem_singleton.mpr (.ofBinary (name (by decide))))))
  have layered : Layered .any differences :=
    .ofBinary (.binary rfl (by decide)
      (.binary rfl (by decide) (name (by decide))
        (.binary rfl (by decide) (name (by decide)) one)) tuple)
  exact ⟨by decide, expression_inverts_spelling layered (by decide) 0 "main"⟩

end BraceLang.Grammar
