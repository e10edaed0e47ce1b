import BraceLang.Proofs.Grammar.Agreement
import BraceLang.Proofs.Node.Members
import BraceLang.Proofs.Token.Words

/-! What a parser that succeeds has read on its way: at least so many tokens, and the words among them
    are those of the pieces it has made out of them (`Reads`). Such accounts compose along a parser, and
    making a node out of its pieces leaves an account as it is.

    The words are accounted for as long as no syntax error is reported: a statement that cannot be read
    is thrown away with its words. -/

namespace BraceLang

/-- Whether a diagnostic is about the order of tokens. -/
def Diagnostic.isSyntax (d : Diagnostic) : Bool :=
  [Code.unexpectedToken, Code.tooFewItems, Code.tooDeeplyNested].any fun code =>
    d.code == some code.text

theorem ParseError.isSyntax_toDiagnostic (e : ParseError) : e.toDiagnostic.isSyntax = true := by
  have hcode : e.toDiagnostic.code = some e.cause.code.text := by
    unfold toDiagnostic Diagnostic.withHelp?
    split <;> rfl
  unfold Diagnostic.isSyntax
  rw [hcode]
  cases e.cause <;> rfl

namespace Grammar

variable {α : Type} {s t u : State}

/-! ### Places -/

namespace State

/-- The words among the tokens ahead. -/
def words (s : State) : List Word := s.ahead.filterMap (·.token.word?)

/-- Every token ahead carries what its kind promises. -/
def Spoken (s : State) : Prop := ∀ lexed ∈ s.ahead, lexed.token.Spoken

/-- The number of syntax errors reported so far. -/
def complaints (s : State) : Nat := s.log.toList.countP Diagnostic.isSyntax

theorem ahead_of_kind_ne (h : s.kind ≠ .eof) :
    ∃ lexed rest, s.ahead = lexed :: rest ∧ s.current = lexed.token := by
  cases hahead : s.ahead with
  | nil =>
    refine absurd ?_ h
    simp only [kind, current, hahead, s.eof_kind]
  | cons lexed rest => exact ⟨lexed, rest, rfl, by simp only [current, hahead]⟩

theorem kind_of_ahead_nil (h : s.ahead = []) : s.kind = .eof := by
  simp only [kind, current, h, s.eof_kind]

theorem kind_advance (s : State) : s.advance.kind = s.peek 1 := by
  unfold kind current peek
  rw [show s.advance.ahead = s.ahead.tail from rfl]
  rcases s.ahead with _ | ⟨first, _ | ⟨second, rest⟩⟩
  · exact s.eof_kind
  · exact s.eof_kind
  · rfl

theorem remaining_advance (h : s.kind ≠ .eof) : s.advance.remaining + 1 = s.remaining := by
  obtain ⟨lexed, rest, hahead, -⟩ := ahead_of_kind_ne h
  simp [s.remaining_eq, advance, hahead]

theorem words_advance (h : s.kind ≠ .eof) : s.words = s.current.word?.toList ++ s.advance.words := by
  obtain ⟨lexed, rest, hahead, hcurrent⟩ := ahead_of_kind_ne h
  rw [hcurrent]
  simp only [words, advance, hahead, List.tail_cons, List.filterMap_cons]
  cases lexed.token.word? <;> rfl

theorem Spoken.current (h : s.Spoken) (hk : s.kind ≠ .eof) : s.current.Spoken := by
  obtain ⟨lexed, rest, hahead, hcurrent⟩ := ahead_of_kind_ne hk
  rw [hcurrent]
  exact h lexed (by simp [hahead])

end State

theorem Moves.spoken (h : Moves s t) (hs : s.Spoken) : t.Spoken :=
  fun lexed hlexed => hs lexed (h.ahead.subset hlexed)

theorem Moves.complaints_le (h : Moves s t) : s.complaints ≤ t.complaints :=
  h.log.sublist.countP_le

/-! ### Pieces -/

/-- Pieces that stand for the same words as others, and whose selections are proper if theirs are. -/
structure Regroups (ps qs : List (Piece Node)) : Prop where
  words : qs.flatMap Piece.words = ps.flatMap Piece.words
  proper : (∀ n, .part n ∈ ps → n.ProperMembers) → ∀ n, .part n ∈ qs → n.ProperMembers

namespace Regroups
variable {ps qs rs : List (Piece Node)}

theorem refl : Regroups ps ps := ⟨rfl, id⟩

theorem of_eq (h : ps = qs) : Regroups ps qs := h ▸ refl

theorem trans (h : Regroups ps qs) (h' : Regroups qs rs) : Regroups ps rs :=
  ⟨h'.words.trans h.words, h'.proper ∘ h.proper⟩

theorem append_right (h : Regroups ps qs) (rs : List (Piece Node)) :
    Regroups (ps ++ rs) (qs ++ rs) where
  words := by rw [List.flatMap_append, List.flatMap_append, h.words]
  proper hps n hn := by
    rcases List.mem_append.mp hn with hn | hn
    · exact h.proper (fun m hm => hps m (List.mem_append_left _ hm)) n hn
    · exact hps n (List.mem_append_right _ hn)

/-- The pieces of a construct become one node. -/
theorem node {id : NodeId} {range : Range} {shape : Shape Node} (hps : ps = shape.pieces)
    (hm : shape.selectsProperly = true) :
    Regroups ps [.part ⟨id, range, none, shape⟩] where
  words := by simp [hps, Piece.words, Node.words_eq]
  proper hparts n hn := by
    obtain rfl : n = ⟨id, range, none, shape⟩ := by simpa using hn
    refine .mk hm fun c hc => hparts c ?_
    rw [hps]
    exact Shape.part_mem_pieces.mpr hc

end Regroups

/-! ### Accounts -/

/-- From one place to the other, at least `count` tokens were taken and these pieces were read. -/
structure Reads (s : State) (count : Nat) (ps : List (Piece Node)) (t : State) : Prop where
  moves : Moves s t
  takes : t.remaining + count ≤ s.remaining
  words : s.Spoken → t.complaints = s.complaints → s.words = ps.flatMap Piece.words ++ t.words
  proper : ∀ n, .part n ∈ ps → n.ProperMembers

namespace Reads
variable {k l : Nat} {ps qs : List (Piece Node)}

theorem refl (s : State) : Reads s 0 [] s :=
  ⟨.refl s, Nat.le_refl _, fun _ _ => rfl, fun _ h => absurd h List.not_mem_nil⟩

theorem trans (h : Reads s k ps t) (h' : Reads t l qs u) : Reads s (k + l) (ps ++ qs) u where
  moves := h.moves.trans h'.moves
  takes := by
    have := h.takes
    have := h'.takes
    omega
  words hs hu := by
    have hst := h.moves.complaints_le
    have htu := h'.moves.complaints_le
    rw [h.words hs (by omega), h'.words (h.moves.spoken hs) (by omega), List.flatMap_append,
      List.append_assoc]
  proper n hn := (List.mem_append.mp hn).elim (h.proper n) (h'.proper n)

theorem weaken (h : Reads s k ps t) (hl : l ≤ k) : Reads s l ps t :=
  { h with takes := Nat.le_trans (Nat.add_le_add_left hl _) h.takes }

theorem regroup (h : Reads s k ps t) (h' : Regroups ps qs) : Reads s k qs t :=
  { h with
    words := fun hs ht => by rw [h'.words, h.words hs ht]
    proper := h'.proper h.proper }

/-- The nearest token is taken, and the given words are what it is. -/
theorem advance {ws : List Word} (hne : s.kind ≠ .eof)
    (hws : s.current.Spoken → s.current.word?.toList = ws) : Reads s 1 (ws.map .word) s.advance where
  moves := .advance s
  takes := Nat.le_of_eq (State.remaining_advance hne)
  words hs _ := by
    have hpieces : (ws.map Piece.word).flatMap Piece.words = ws := by
      simp [List.flatMap_map, Piece.words]
    rw [State.words_advance hne, hpieces, hws (hs.current hne)]
  proper n hn := by simp at hn

/-- A token that is the given word is taken. -/
theorem word {w : Word} (hne : s.kind ≠ .eof) (hw : s.current.Spoken → s.current.word? = some w) :
    Reads s 1 [.word w] s.advance :=
  have hws : s.current.Spoken → s.current.word?.toList = [w] := fun hspoken =>
    congrArg Option.toList (hw hspoken)
  advance hne hws

/-- A token that is no word is taken. -/
theorem mute (hne : s.kind ≠ .eof) (hw : s.current.Spoken → s.current.word? = none) :
    Reads s 1 [] s.advance :=
  have hws : s.current.Spoken → s.current.word?.toList = [] := fun hspoken =>
    congrArg Option.toList (hw hspoken)
  advance hne hws

/-- A token of a kind that is no word is taken. -/
theorem mark {k : Kind} (hk : s.kind = k) (hmark : k.isMark = true) : Reads s 1 [] s.advance := by
  obtain rfl := hk
  obtain ⟨hsilent, hne⟩ : s.kind.speaks = false ∧ s.kind ≠ .eof := by simpa [Kind.isMark] using hmark
  exact mute hne fun _ => Token.word?_of_not_speaks hsilent

/-- A name is taken. -/
theorem name (hk : s.kind = .name) : Reads s 1 [.word (.name s.current.text)] s.advance :=
  word (by simp [hk]) (Token.word?_name hk)

/-- A primitive type is taken. -/
theorem prim (hk : s.kind.roles.primitive = true) : Reads s 1 [.word (.prim s.kind)] s.advance :=
  have hne : s.kind ≠ .eof := fun h => by rw [h] at hk; cases hk
  word hne fun _ => Token.word?_prim hk

/-- A token that is no word is taken if it is there. -/
theorem eat {k : Kind} {b : Bool} (hmark : k.isMark = true) (e : eat k s = .ok b t) :
    Reads s 0 [] t := by
  rw [eat_run] at e
  split at e
  · rename_i hk
    cases e
    exact (mark hk hmark).weaken (Nat.zero_le 1)
  · cases e
    exact refl s

theorem identified (h : Reads s k ps t) : Reads s k ps t.identified where
  moves := h.moves.trans (.identified t)
  takes := h.takes
  words := h.words
  proper := h.proper

theorem withStructLiterals {allowed : Bool} (h : Reads { s with structLiterals := allowed } k ps t) :
    Reads s k ps { t with structLiterals := s.structLiterals } :=
  ⟨h.moves.withStructLiterals, h.takes, h.words, h.proper⟩

theorem nested (h : Reads { s with depth := s.depth + 1 } k ps t) :
    Reads s k ps { t with depth := t.depth - 1 } :=
  ⟨h.moves.nested, h.takes, h.words, h.proper⟩

end Reads

/-- A construct was read, and at least one token for it. -/
structure Builds (s : State) (shape : Shape Node) (t : State) : Prop where
  reads : Reads s 1 shape.pieces t
  member : shape.selectsProperly = true

theorem Reads.builds {k : Nat} {ps : List (Piece Node)} {shape : Shape Node} (h : Reads s k ps t)
    (hk : 1 ≤ k) (hps : ps = shape.pieces)
    (hm : shape.selectsProperly = true) :
    Builds s shape t :=
  ⟨hps ▸ h.weaken hk, hm⟩

/-- The construct read becomes a node. -/
theorem Builds.node {id : NodeId} {range : Range} {shape : Shape Node} (h : Builds s shape t) :
    Reads s 1 [.part ⟨id, range, none, shape⟩] t.identified :=
  (h.reads.regroup (.node rfl h.member)).identified

theorem Reads.node {k : Nat} {ps : List (Piece Node)} {id : NodeId} {range : Range}
    {shape : Shape Node} (h : Reads s k ps t) (hk : 1 ≤ k) (hps : ps = shape.pieces)
    (hm : shape.selectsProperly = true) :
    Reads s 1 [.part ⟨id, range, none, shape⟩] t.identified :=
  (h.builds hk hps hm).node

/-! ### Loops -/

/-- The least number of tokens that a step of a loop takes: one unless it is the last. -/
def ForInStep.count : ForInStep α → Nat
  | .done _ => 0
  | .yield _ => 1

/-- A step from `a` at one place came to `r` at the other: it took a token unless it was the last, and
    added what it read to the pieces that `a` stands for. -/
def Steps (view : α → List (Piece Node)) (a : α) (s : State) (r : ForInStep α) (t : State) : Prop :=
  ∃ ps, Reads s (ForInStep.count r) ps t ∧ Regroups (view a ++ ps) (view r.value)

theorem Reads.again {view : α → List (Piece Node)} {a b : α} {k : Nat} {ps : List (Piece Node)}
    (h : Reads s (k + 1) ps t) (hview : Regroups (view a ++ ps) (view b)) :
    Steps view a s (.yield b) t :=
  ⟨ps, h.weaken (Nat.le_add_left 1 k), hview⟩

theorem Reads.last {view : α → List (Piece Node)} {a b : α} {k : Nat} {ps : List (Piece Node)}
    (h : Reads s k ps t) (hview : Regroups (view a ++ ps) (view b)) : Steps view a s (.done b) t :=
  ⟨ps, h.weaken (Nat.zero_le k), hview⟩

theorem Steps.idle {view : α → List (Piece Node)} {a : α} : Steps view a s (.done a) s :=
  (Reads.refl s).last (.of_eq (List.append_nil _))

/-- Every step of a loop takes a token unless it is the last, and adds what it reads. -/
def StepReads (view : α → List (Piece Node)) (step : α → Parser (ForInStep α)) : Prop :=
  ∀ ⦃a s r t⦄, step a s = .ok r t → Steps view a s r t

theorem StepReads.repeatFrom {view : α → List (Piece Node)} {step : α → Parser (ForInStep α)}
    (h : StepReads view step) (a : α) (s : State) {b : α} (hrun : repeatFrom step a s = .ok b t) :
    ∃ ps, Reads s 0 ps t ∧ Regroups (view a ++ ps) (view b) := by
  fun_induction Grammar.repeatFrom step a s with
  | case1 a s c u hstep =>
    cases hrun
    exact h hstep
  | case2 a s c u hstep hlt ih =>
    obtain ⟨ps, hps, hgroup⟩ := h hstep
    obtain ⟨qs, hqs, hgroup'⟩ := ih hrun
    refine ⟨ps ++ qs, (hps.trans hqs).weaken (Nat.zero_le _), ?_⟩
    rw [← List.append_assoc]
    exact (hgroup.append_right qs).trans hgroup'
  | case3 a s c u hstep hge =>
    cases hrun
    obtain ⟨ps, hps, hgroup⟩ := h hstep
    exact ⟨ps, hps.weaken (Nat.zero_le _), hgroup⟩
  | case4 a s e u hstep => cases hrun

theorem StepReads.repeating {view : α → List (Piece Node)} {step : α → Parser (ForInStep α)}
    (h : StepReads view step) {a b : α} (hrun : repeating a step s = .ok b t) :
    ∃ ps, Reads s 0 ps t ∧ Regroups (view a ++ ps) (view b) :=
  h.repeatFrom a s hrun

/-! ### Lists and optional parts -/

/-- A parser that gives one node, and takes a token for it. -/
def ReadsNode (p : Parser Node) : Prop := ∀ ⦃s n t⦄, p s = .ok n t → Reads s 1 [.part n] t

theorem ReadsNode.withStructLiterals {p : Parser Node} {allowed : Bool} (h : ReadsNode p) :
    ReadsNode (withStructLiterals allowed p) := by
  intro s n t e
  obtain ⟨t', hp, rfl⟩ := withStructLiterals_eq_ok.mp e
  exact (h hp).withStructLiterals

/-- The pieces that collected nodes are. -/
def collected (nodes : Array Node) : List (Piece Node) := nodes.toList.map .part

theorem collected_push {nodes : Array Node} {n : Node} :
    collected nodes ++ [.part n] = collected (nodes.push n) := by
  simp [collected]

theorem listStep_reads {closing : Kind} {item : Parser Node} (hitem : ReadsNode item) :
    StepReads collected (listStep closing item) := by
  intro items s r t e
  rcases check_ite_eq_ok.mp e with ⟨-, e⟩ | ⟨-, e⟩
  · obtain ⟨rfl, rfl⟩ := pure_eq_ok.mp e
    exact .idle
  · obtain ⟨n, u, hn, e⟩ := bind_eq_ok.mp e
    rcases eat_ite_eq_ok.mp e with ⟨hk, e⟩ | ⟨-, e⟩
    · obtain ⟨rfl, rfl⟩ := pure_eq_ok.mp e
      exact ((hitem hn).trans (.mark hk rfl)).again (.of_eq collected_push)
    · obtain ⟨rfl, rfl⟩ := pure_eq_ok.mp e
      exact (hitem hn).last (.of_eq collected_push)

theorem list_reads {closing : Kind} {item : Parser Node} {ns : List Node} (hitem : ReadsNode item)
    (hclosing : closing.isMark = true) (e : list closing item s = .ok ns t) :
    Reads s 1 (ns.map .part) t := by
  obtain ⟨t', hrun, rfl⟩ := withStructLiterals_eq_ok.mp e
  simp only [bind_eq_ok, expect_eq_ok, pure_eq_ok] at hrun
  obtain ⟨items, u, hitems, _, _, ⟨hk, -, rfl⟩, rfl, rfl⟩ := hrun
  obtain ⟨ps, hps, hgroup⟩ := (listStep_reads hitem).repeating hitems
  have hread := (hps.regroup hgroup).trans (.mark hk hclosing)
  rw [List.append_nil] at hread
  exact hread.withStructLiterals

theorem optionalAfter_reads {k : Kind} {item : Parser Node} {x : Option Node} (hitem : ReadsNode item)
    (hk : k.isMark = true) (e : optionalAfter k item s = .ok x t) :
    Reads s 0 (x.toList.map .part) t := by
  rcases eat_ite_eq_ok.mp e with ⟨hkind, e⟩ | ⟨-, e⟩
  · obtain ⟨n, u, hn, e⟩ := bind_eq_ok.mp e
    obtain ⟨rfl, rfl⟩ := pure_eq_ok.mp e
    exact ((Reads.mark hkind hk).trans (hitem hn)).weaken (Nat.zero_le _)
  · obtain ⟨rfl, rfl⟩ := pure_eq_ok.mp e
    exact .refl _

/-- What the rules one level deeper read. -/
structure Rules.Read (r : Rules) : Prop where
  expression : ReadsNode r.expression
  type : ReadsNode r.type
  statement : ReadsNode r.statement
  block : ReadsNode r.block
  structMember : ReadsNode r.structMember
  operand (limit : Nat) : ReadsNode (r.operand limit)
  unary : ReadsNode r.unary
  elseIf : ReadsNode r.elseIf
  /-- Also a statement that cannot be read only moves on. -/
  moves (depth : Nat) : Agrees depth r.statement r.statement

end Grammar

end BraceLang
