import BraceLang.Proofs.Grammar.Reads
import BraceLang.Proofs.Node.Preorder
import BraceLang.Proofs.Token.Braces

/-! How many braces are open where a parser stops. Whatever a parser does, and failed or not, it closes
    no brace that it has not opened; one that succeeds closes those that it has opened, unless a syntax
    error is reported on the way (`Levels`). Such accounts compose along a parser, and what is made out
    of the tokens is followed along with them. -/

namespace BraceLang

/-- Whether a construct is a block. -/
def Shape.isBlock {α : Type} : Shape α → Bool
  | block _ => true
  | _ => false

namespace Grammar

variable {α β : Type} {s t u : State}

/-- The tokens of a text, and what is known if no syntax error is reported for it. -/
structure Reading where
  tokens : List Lexed
  quiet : Prop

/-- The kinds of tokens, in order. -/
def kindsOf (lexed : List Lexed) : List Kind := lexed.map (·.token.kind)

namespace Reading

/-- The braces at both ends of a range, among the tokens of a text: no brace is closed between them that
    is not opened there, and without a syntax error none is left open. -/
def Encloses (x : Reading) (range : Range) : Prop :=
  ∃ before opening inner closing after level,
    x.tokens = before ++ opening :: (inner ++ closing :: after) ∧
    opening.token.kind = .lBrace ∧ closing.token.kind = .rBrace ∧
    range.start.pos = opening.token.range.start.pos ∧ range.stop.pos = closing.token.range.stop.pos ∧
    Kind.level? 0 (kindsOf inner) = some level ∧ (x.quiet → level = 0)

/-- Every block in a tree has its braces. -/
def Sound (x : Reading) : Node → Prop :=
  Node.Throughout fun n => n.shape.isBlock = true → x.Encloses n.range

/-- Every node among several is sound. -/
def AllSound (x : Reading) (ns : List Node) : Prop := ∀ n ∈ ns, x.Sound n

/-- The tokens stand in order in one source. -/
def Ordered (x : Reading) : Prop :=
  x.tokens.Pairwise fun a b => a.token.range.source = b.token.range.source ∧
    a.token.range.start.pos ≤ b.token.range.start.pos ∧ a.token.range.stop.pos ≤ b.token.range.stop.pos

/-- A construct that is no block, and the parts of which are sound. -/
def SoundParts (x : Reading) (shape : Shape Node) : Prop :=
  shape.isBlock = false ∧ x.AllSound shape.toList

namespace AllSound
variable {x : Reading} {n m : Node} {ns ms : List Node}

theorem nil : x.AllSound [] := List.forall_mem_nil _

theorem cons (hn : x.Sound n) (hns : x.AllSound ns) : x.AllSound (n :: ns) :=
  List.forall_mem_cons.mpr ⟨hn, hns⟩

theorem single (hn : x.Sound n) : x.AllSound [n] := cons hn nil

theorem pair (hn : x.Sound n) (hm : x.Sound m) : x.AllSound [n, m] := cons hn (single hm)

theorem append (hns : x.AllSound ns) (hms : x.AllSound ms) : x.AllSound (ns ++ ms) :=
  List.forall_mem_append.mpr ⟨hns, hms⟩

theorem push {items : Array Node} (h : x.AllSound items.toList) (hn : x.Sound n) :
    x.AllSound (items.push n).toList := by
  rw [Array.toList_push]
  exact h.append (single hn)

end AllSound

end Reading

/-! ### Looking ahead -/

/-- A parser that only looks at the tokens ahead. -/
def Looks (p : Parser α) : Prop := ∀ s, ∃ a, p s = .ok a s

namespace Looks

theorem pure {a : α} : Looks (pure a) := fun _ => ⟨a, rfl⟩

theorem peek {n : Nat} : Looks (peek n) := fun _ => ⟨_, rfl⟩

theorem bind {p : Parser α} {g : α → Parser β} (hp : Looks p) (hg : ∀ a, Looks (g a)) : Looks (p >>= g) := by
  intro s
  obtain ⟨a, hrun⟩ := hp s
  rw [bind_of_ok hrun]
  exact hg a s

theorem atArraySuffix : Looks atArraySuffix := by
  refine .bind .peek fun k => ?_
  split
  · exact .pure
  · exact .bind .peek fun _ => .pure
  · exact .bind .peek fun _ => .pure
  · exact .pure

theorem atStructLiteral : Looks atStructLiteral := by
  refine .bind .peek fun k => ?_
  split
  · exact .pure
  · exact .bind .peek fun _ => .pure
  · exact .pure

theorem atFunctionDecl : Looks atFunctionDecl := by
  refine .bind .peek fun k => ?_
  split
  · exact .bind .peek fun _ => .bind .peek fun _ => .pure
  · exact .pure

end Looks

/-! ### Accounts -/

variable {x : Reading} {pre : Prop} {d e f : Nat} {good : α → Prop} {good' : β → Prop}

/-- The tokens between two places lead from `d` open braces to `e`. -/
def Crosses (s : State) (d e : Nat) (t : State) : Prop :=
  ∃ taken, s.ahead = taken ++ t.ahead ∧ Kind.level? d (kindsOf taken) = some e

namespace Crosses

theorem of_ahead_eq (h : s.ahead = t.ahead) : Crosses s d d t := ⟨[], h, rfl⟩

theorem trans (h : Crosses s d e t) (h' : Crosses t e f u) : Crosses s d f u := by
  obtain ⟨taken, htaken, hlevel⟩ := h
  obtain ⟨more, hmore, hlevel'⟩ := h'
  refine ⟨taken ++ more, by rw [htaken, hmore, List.append_assoc], ?_⟩
  rw [kindsOf, List.map_append, Kind.level?_append]
  exact Option.bind_eq_some_iff.mpr ⟨e, hlevel, hlevel'⟩

/-- Braces that are open around everything stay open. -/
theorem lift (h : Crosses s d e t) (n : Nat) : Crosses s (d + n) (e + n) t := by
  obtain ⟨taken, htaken, hlevel⟩ := h
  exact ⟨taken, htaken, Kind.level?_add hlevel n⟩

theorem onward {level : Nat} (h : Crosses s d level t) (h' : Crosses t 0 e u) : Crosses s d (e + level) u := by
  have hlifted := h'.lift level
  rw [Nat.zero_add] at hlifted
  exact h.trans hlifted

theorem advance {k : Kind} (hkind : s.kind = k) (hk : Kind.level? d [k] = some e) :
    Crosses s d e s.advance := by
  subst hkind
  have htail : s.advance.ahead = s.ahead.tail := rfl
  cases hahead : s.ahead with
  | nil =>
    -- the end is not taken, and it is no brace
    rw [State.kind_of_ahead_nil hahead] at hk
    obtain rfl : d = e := Option.some.inj hk
    exact of_ahead_eq (by rw [htail, hahead, List.tail_nil])
  | cons lexed rest =>
    have hkind : s.kind = lexed.token.kind := by simp only [State.kind, State.current, hahead]
    rw [hkind] at hk
    exact ⟨[lexed], by rw [htail, hahead, List.tail_cons, List.singleton_append], hk⟩

end Crosses

/-- Whether an outcome with `level` open braces behind it is as it should be with `e` of them. -/
def Lands (quiet : Prop) (e level : Nat) (good : α → Prop) : Outcome α → Prop
  | .ok a _ => good a ∧ e ≤ level ∧ (quiet → level = e)
  | .error _ _ => True

theorem Lands.lift {quiet : Prop} {level : Nat} {o : Outcome α} (h : Lands quiet e level good o) (n : Nat) :
    Lands quiet (e + n) (level + n) good o := by
  cases o with
  | ok a t =>
    obtain ⟨ha, hle, hquiet⟩ := h
    exact ⟨ha, Nat.add_le_add_right hle n, fun h => by rw [hquiet h]⟩
  | error err t => trivial

/-- Braces that were left open before stay open. -/
theorem Lands.raise {quiet : Prop} {level n : Nat} {o : Outcome α} (h : Lands quiet e level good o)
    (hn : quiet → n = 0) : Lands quiet e (level + n) good o := by
  cases o with
  | ok a t =>
    obtain ⟨ha, hle, hquiet⟩ := h
    exact ⟨ha, Nat.le_add_right_of_le hle, fun h => by rw [hquiet h, hn h, Nat.add_zero]⟩
  | error err t => trivial

/-- An outcome from a place in the text with `d` braces open: it moves on and, if what was made before is
    as it should be, it is so too, with `e` braces open behind it. -/
def Levels (x : Reading) (pre : Prop) (d e : Nat) (good : α → Prop) (s : State) (o : Outcome α) : Prop :=
  s.ahead <:+ x.tokens → Moves s o.stop ∧ (pre → (x.quiet → o.stop.complaints = 0) →
    ∃ level, Crosses s d level o.stop ∧ Lands x.quiet e level good o)

/-- A parser that leaves the level as it is, wherever it starts. -/
def Steady (x : Reading) (good : α → Prop) (p : Parser α) : Prop :=
  ∀ (pre : Prop) (d : Nat) (s : State), Levels x pre d d good s (p s)

namespace Levels

theorem weaken {pre' : Prop} {o : Outcome α} (h : Levels x pre d e good s o) (hpre : pre' → pre) :
    Levels x pre' d e good s o := by
  intro hs
  obtain ⟨hmoves, hlands⟩ := h hs
  exact ⟨hmoves, fun h => hlands (hpre h)⟩

theorem lift {o : Outcome α} (h : Levels x pre d e good s o) (n : Nat) :
    Levels x pre (d + n) (e + n) good s o := by
  intro hs
  obtain ⟨hmoves, hlands⟩ := h hs
  refine ⟨hmoves, fun hpre hquiet => ?_⟩
  obtain ⟨level, hcrosses, hland⟩ := hlands hpre hquiet
  exact ⟨level + n, hcrosses.lift n, hland.lift n⟩

/-- What is known of a success by other means. -/
theorem strengthen {o : Outcome α} (h : Levels x pre d e (fun _ => True) s o)
    (hgood : ∀ a t, o = .ok a t → s.ahead <:+ x.tokens → (x.quiet → t.complaints = 0) → good a) :
    Levels x pre d e good s o := by
  intro hs
  obtain ⟨hmoves, hlands⟩ := h hs
  refine ⟨hmoves, fun hpre hquiet => ?_⟩
  obtain ⟨level, hcrosses, hland⟩ := hlands hpre hquiet
  cases o with
  | ok a t => exact ⟨level, hcrosses, hgood a t rfl hs hquiet, hland.2⟩
  | error err t => exact ⟨level, hcrosses, hland⟩

/-- What is done before may take tokens. -/
theorem across {o : Outcome α} (hmoves : Moves s t) (hcrosses : Crosses s d e t)
    (h : Levels x pre e f good t o) : Levels x pre d f good s o := by
  intro hs
  obtain ⟨hmoves', hlands⟩ := h (hmoves.ahead.trans hs)
  refine ⟨hmoves.trans hmoves', fun hpre hquiet => ?_⟩
  obtain ⟨level, hcrosses', hland⟩ := hlands hpre hquiet
  exact ⟨level, hcrosses.trans hcrosses', hland⟩

/-- The nearest token is taken. -/
theorem take {k : Kind} {o : Outcome α} (hkind : s.kind = k) (hk : Kind.level? d [k] = some e)
    (h : Levels x pre e f good s.advance o) : Levels x pre d f good s o :=
  across (.advance s) (.advance hkind hk) h

theorem pure {a : α} (h : pre → good a) : Levels x pre d d good s ((pure a : Parser α) s) :=
  fun _ => ⟨.refl s, fun hpre _ => ⟨d, .of_ahead_eq rfl, h hpre, Nat.le_refl d, fun _ => rfl⟩⟩

theorem fail {err : ParseError} : Levels x pre d e good s (.error err s) :=
  fun _ => ⟨.refl s, fun _ _ => ⟨d, .of_ahead_eq rfl, trivial⟩⟩

/-- One outcome after another. -/
theorem after {a : α} {o : Outcome β} (h : Levels x pre d e good s (.ok a t))
    (h' : Levels x (pre ∧ good a) e f good' t o) : Levels x pre d f good' s o := by
  intro hs
  obtain ⟨hmoves, hlands⟩ := h hs
  obtain ⟨hmoves', hlands'⟩ := h' (hmoves.ahead.trans hs)
  refine ⟨hmoves.trans hmoves', fun hpre hquiet => ?_⟩
  have hearlier : x.quiet → t.complaints = 0 :=
    fun h => Nat.le_zero.mp (hquiet h ▸ hmoves'.complaints_le)
  obtain ⟨level, hcrosses, ha, hle, hexact⟩ := hlands hpre hearlier
  obtain ⟨last, hcrosses', hland⟩ := hlands' ⟨hpre, ha⟩ hquiet
  -- braces that the first has left open are open around the second
  obtain ⟨n, rfl⟩ := Nat.exists_eq_add_of_le hle
  exact ⟨last + n, hcrosses.trans (hcrosses'.lift n), hland.raise fun h => by have := hexact h; omega⟩

theorem bind {p : Parser α} {g : α → Parser β} (hp : Levels x pre d e good s (p s))
    (hg : ∀ a t, Levels x (pre ∧ good a) e f good' t (g a t)) : Levels x pre d f good' s ((p >>= g) s) := by
  cases hrun : p s with
  | ok a t =>
    rw [hrun] at hp
    rw [bind_of_ok hrun]
    exact hp.after (hg a t)
  | error err t =>
    rw [hrun] at hp
    rw [bind_of_error hrun]
    exact hp

/-- A parser that gives nothing to follow. -/
theorem seq {p : Parser α} {g : α → Parser β} (hp : Levels x pre d e (fun _ => True) s (p s))
    (hg : ∀ a t, Levels x pre e f good' t (g a t)) : Levels x pre d f good' s ((p >>= g) s) :=
  hp.bind fun a t => (hg a t).weaken And.left

theorem ite {c : Prop} [Decidable c] {p q : Parser α} (hp : c → Levels x pre d e good s (p s))
    (hq : ¬c → Levels x pre d e good s (q s)) : Levels x pre d e good s ((if c then p else q) s) := by
  split
  · exact hp ‹_›
  · exact hq ‹_›

/-! ### The actions -/

theorem here {g : Range → Parser α} (hg : Levels x pre d f good s (g s.current.range s)) :
    Levels x pre d f good s ((Grammar.here >>= g) s) := hg

theorem kind {g : Kind → Parser α} (hg : ∀ k, s.kind = k → Levels x pre d f good s (g k s)) :
    Levels x pre d f good s ((Grammar.kind >>= g) s) := hg s.kind rfl

theorem get {g : State → Parser α} (hg : Levels x pre d f good s (g s s)) :
    Levels x pre d f good s (((MonadState.get : Parser State) >>= g) s) := hg

theorem check {k : Kind} {g : Bool → Parser α}
    (hg : ∀ b, (b = true → s.kind = k) → Levels x pre d f good s (g b s)) :
    Levels x pre d f good s ((Grammar.check k >>= g) s) := hg (s.kind == k) beq_iff_eq.mp

theorem advance {k : Kind} {g : Token → Parser α} (hkind : s.kind = k) (hk : Kind.level? d [k] = some e)
    (hg : Levels x pre e f good s.advance (g s.current s.advance)) :
    Levels x pre d f good s ((Grammar.advance >>= g) s) := take hkind hk hg

theorem expect {k : Kind} {g : Token → Parser α} (hk : Kind.level? d [k] = some e)
    (hg : ∀ token t, Levels x pre e f good t (g token t)) :
    Levels x pre d f good s ((Grammar.expect k >>= g) s) := by
  rw [expect_bind]
  split
  · exact take ‹s.kind = k› hk (hg _ _)
  · exact fail

theorem eaten {k : Kind} (hk : Kind.level? d [k] = some d) :
    Levels x pre d d (fun _ => True) s (Grammar.eat k s) := by
  rw [eat_run]
  split
  · exact take ‹s.kind = k› hk (pure fun _ => trivial)
  · exact pure fun _ => trivial

theorem eat {k : Kind} {g : Bool → Parser α} (hk : Kind.level? d [k] = some d)
    (hg : ∀ b t, Levels x pre d f good t (g b t)) : Levels x pre d f good s ((Grammar.eat k >>= g) s) :=
  seq (eaten hk) hg

theorem expectName {g : Ident → Parser α} (hg : ∀ name t, Levels x pre d f good t (g name t)) :
    Levels x pre d f good s ((Grammar.expectName >>= g) s) := by
  rw [expectName_bind]
  split
  · exact take ‹s.kind = .name› rfl (hg _ _)
  · exact fail

theorem finish {start : Range} {g : Range → Parser α} (hg : ∀ range, Levels x pre d f good s (g range s)) :
    Levels x pre d f good s ((Grammar.finish start >>= g) s) := by
  rw [finish_bind]
  exact hg _

theorem unexpected {what : Expectation} : Levels x pre d e good s (Grammar.unexpected what s) := fail

theorem look {p : Parser β} {g : β → Parser α} (hp : Looks p) (hg : ∀ b, Levels x pre d f good s (g b s)) :
    Levels x pre d f good s ((p >>= g) s) := by
  obtain ⟨b, hrun⟩ := hp s
  rw [bind_of_ok hrun]
  exact hg b

/-- A construct with sound parts is a sound node. -/
theorem node {shape : Shape Node} {range : Range} (h : pre → x.SoundParts shape) :
    Levels x pre d d x.Sound s (Grammar.node shape range s) := by
  refine across (Moves.identified s) (.of_ahead_eq rfl) (pure fun hpre => .mk (fun hblock => ?_) (h hpre).2)
  rw [(h hpre).1] at hblock
  cases hblock

theorem close {start : Range} {shape : Shape Node} (h : pre → x.SoundParts shape) :
    Levels x pre d d x.Sound s (Grammar.close start shape s) :=
  finish fun _ => node h

/-! ### Combinations -/

theorem withStructLiterals {allowed : Bool} {p : Parser α} (h : ∀ s, Levels x pre d e good s (p s)) :
    Levels x pre d e good s (Grammar.withStructLiterals allowed p s) := by
  intro hs
  obtain ⟨hmoves, hlands⟩ := h { s with structLiterals := allowed } hs
  unfold Grammar.withStructLiterals
  cases hrun : p { s with structLiterals := allowed } with
  | ok a t =>
    rw [hrun] at hmoves hlands
    exact ⟨hmoves.withStructLiterals, hlands⟩
  | error err t =>
    rw [hrun] at hmoves hlands
    exact ⟨hmoves.withStructLiterals, hlands⟩

theorem nested {p : Parser α} (h : ∀ s, Levels x pre d e good s (p s)) :
    Levels x pre d e good s (Grammar.nested p s) := by
  intro hs
  obtain ⟨hmoves, hlands⟩ := h { s with depth := s.depth + 1 } hs
  unfold Grammar.nested
  cases hrun : p { s with depth := s.depth + 1 } with
  | ok a t =>
    rw [hrun] at hmoves hlands
    exact ⟨hmoves.nested, hlands⟩
  | error err t =>
    rw [hrun] at hmoves hlands
    exact ⟨hmoves.nested, hlands⟩

theorem repeatFrom {step : α → Parser (ForInStep α)}
    (h : ∀ a t, Levels x (good a) d d (fun r => good r.value) t (step a t)) (a : α) (s : State) :
    Levels x (good a) d d good s (Grammar.repeatFrom step a s) := by
  fun_induction Grammar.repeatFrom step a s with
  | case1 a s b t hrun | case3 a s b t hrun =>
    have hstep := h a s
    rw [hrun] at hstep
    exact hstep
  | case2 a s b t hrun hlt ih =>
    have hstep := h a s
    rw [hrun] at hstep
    exact hstep.after (ih.weaken And.right)
  | case4 a s err t hrun =>
    have hstep := h a s
    rw [hrun] at hstep
    exact hstep

theorem repeating {step : α → Parser (ForInStep α)} {a : α} (ha : pre → good a)
    (h : ∀ a t, Levels x (good a) d d (fun r => good r.value) t (step a t)) :
    Levels x pre d d good s (Grammar.repeating a step s) := (repeatFrom h a s).weaken ha

end Levels

/-! ### Lists and optional parts -/

theorem Steady.nested {p : Parser α} (h : Steady x good p) : Steady x good (nested p) :=
  fun pre d _ => .nested (h pre d)

theorem Steady.tooDeep : Steady x good (tooDeep : Parser α) := fun _ _ _ => .fail

namespace Levels

theorem listStep {closing : Kind} {item : Parser Node} (h : Steady x x.Sound item) (items : Array Node) :
    Levels x (x.AllSound items.toList) d d (fun r => x.AllSound r.value.toList) s
      (Grammar.listStep closing item items s) := by
  refine ite (fun _ => pure id) fun _ => bind (h _ d s) fun n t => ?_
  refine eat rfl fun b u => ite (fun _ => pure ?_) fun _ => pure ?_
  · exact fun ⟨hitems, hn⟩ => hitems.push hn
  · exact fun ⟨hitems, hn⟩ => hitems.push hn

theorem list {closing : Kind} {item : Parser Node} (hk : Kind.level? d [closing] = some e)
    (h : Steady x x.Sound item) : Levels x pre d e x.AllSound s (Grammar.list closing item s) :=
  withStructLiterals fun _ =>
    bind (repeating (fun _ => Reading.AllSound.nil) fun items _ => listStep h items) fun _ _ =>
      expect hk fun _ _ => pure And.right

theorem optionalAfter {k : Kind} {item : Parser Node} (hk : Kind.level? d [k] = some d)
    (h : Steady x x.Sound item) :
    Levels x pre d d (fun found => x.AllSound found.toList) s (Grammar.optionalAfter k item s) := by
  refine eat hk fun b t => ite (fun _ => ?_) fun _ => pure fun _ => .nil
  exact bind (h _ d t) fun n u => pure fun ⟨_, hn⟩ => .single hn

end Levels

/-- What the rules one level deeper do with braces. -/
structure Rules.Steady (r : Rules) (x : Reading) : Prop where
  expression : Grammar.Steady x x.Sound r.expression
  type : Grammar.Steady x x.Sound r.type
  statement : Grammar.Steady x x.Sound r.statement
  block : Grammar.Steady x x.Sound r.block
  structMember : Grammar.Steady x x.Sound r.structMember
  operand (limit : Nat) : Grammar.Steady x x.Sound (r.operand limit)
  unary : Grammar.Steady x x.Sound r.unary
  elseIf : Grammar.Steady x x.Sound r.elseIf

end Grammar

end BraceLang
