import BraceLang.Proofs.Grammar.Levels
import BraceLang.Proofs.Grammar.Spans
import BraceLang.Proofs.Token.Holes

/-! Parsers and templates. No parser takes text or the end of a template that it has not opened itself (`Spares`),
    as long as no syntax error is reported: after an error, tokens are skipped whatever they are. Such accounts
    compose along a parser, and what is made of templates is followed along with them: their parts are text, or
    they lie in holes (`HollowText.Threads`).

    An `async` that waits for its function stands right before it, so none waits where a template begins. That is
    what `Spares` asks of a place, and what every success leaves behind. -/

namespace BraceLang

/-- Whether a construct is a template. -/
def Shape.isTemplate {α : Type} : Shape α → Bool
  | template _ => true
  | _ => false

theorem Shape.template_of_isTemplate {α : Type} {shape : Shape α} (h : shape.isTemplate = true) :
    ∃ parts, shape = .template parts := by
  cases shape
  case template parts => exact ⟨parts, rfl⟩
  all_goals cases h

/-- Whatever plays a role that the tokens of templates do not play belongs to no template. -/
theorem Kind.isTemplate_of_role (role : Kind → Bool) {k : Kind} (h : role k = true)
    (hothers : [templateOpen, templateText, templateClose].any role = false) : k.isTemplate = false := by
  cases hk : k.isTemplate with
  | false => rfl
  | true =>
    have others : k ∈ [templateOpen, templateText, templateClose] := by
      revert hk
      cases k <;> decide
    rw [List.any_eq_true.mpr ⟨k, others, h⟩] at hothers
    cases hothers

namespace Grammar

variable {α β : Type} {s t u : State}

/-- The tokens of a text with which nothing is wrong, and its holes. -/
structure HollowText where
  source : Nat
  tokens : List Lexed
  holes : List Range
  ordered : Ordered source tokens
  hollow : Hollow (tokens.map (·.token)) holes

namespace HollowText

/-- The parts of a template with this range stand in order. Each is text outside of the holes or lies in a hole of
    the template with a token in it, and each of these holes has a part. A token between the ends of the template
    is text of it or lies in a hole. -/
structure Threads (x : HollowText) (range : Range) (parts : List Node) : Prop where
  ordered : parts.Pairwise fun p q => p.range.stop.pos ≤ q.range.start.pos
  placed : ∀ p ∈ parts, (∃ text, p.shape = .str text) ∧ (∀ h ∈ x.holes, h.Apart p.range) ∨
    ∃ h ∈ x.holes, range.contains h = true ∧ (∃ t ∈ x.tokens, h.contains t.token.range = true) ∧
      h.contains p.range = true
  filled : ∀ h ∈ x.holes, range.contains h = true → (∃ t ∈ x.tokens, h.contains t.token.range = true) →
    ∃ p ∈ parts, h.contains p.range = true
  covered : ∀ t ∈ x.tokens, range.start.pos < t.token.range.start.pos → t.token.range.stop.pos < range.stop.pos →
    t.token.kind = .templateText ∨ ∃ h ∈ x.holes, h.contains t.token.range = true

/-- Every template in a tree is made of its text and its holes. -/
def Sound (x : HollowText) : Node → Prop :=
  Node.Throughout fun n => ∀ parts, n.shape = .template parts → x.Threads n.range parts

/-- Every node among several is sound. -/
def AllSound (x : HollowText) (ns : List Node) : Prop := ∀ n ∈ ns, x.Sound n

/-- A construct that is no template, and the parts of which are sound. -/
def SoundParts (x : HollowText) (shape : Shape Node) : Prop :=
  shape.isTemplate = false ∧ x.AllSound shape.toList

namespace AllSound
variable {x : HollowText} {n m : Node} {ns ms : List Node}

theorem nil : x.AllSound [] := List.forall_mem_nil _

theorem cons (hn : x.Sound n) (hns : x.AllSound ns) : x.AllSound (n :: ns) :=
  List.forall_mem_cons.mpr ⟨hn, hns⟩

theorem single (hn : x.Sound n) : x.AllSound [n] := cons hn nil

theorem pair (hn : x.Sound n) (hm : x.Sound m) : x.AllSound [n, m] := cons hn (single hm)

theorem append (hns : x.AllSound ns) (hms : x.AllSound ms) : x.AllSound (ns ++ ms) :=
  List.forall_mem_append.mpr ⟨hns, hms⟩

theorem push {items : Array Node} (h : x.AllSound items.toList) (hn : x.Sound n) :
    x.AllSound (items.push n).toList := by
  rw [Array.toList_push]
  exact h.append (single hn)

end AllSound

end HollowText

/-! ### Accounts -/

/-- Between two places no template is ended that is not opened there. -/
def Clears (s t : State) : Prop := ∃ taken, s.ahead = taken ++ t.ahead ∧ OpensFirst (taken.map (·.token))

namespace Clears

theorem of_ahead_eq (h : s.ahead = t.ahead) : Clears s t := ⟨[], h, .nil⟩

theorem trans (h : Clears s t) (h' : Clears t u) : Clears s u := by
  obtain ⟨taken, htaken, hfirst⟩ := h
  obtain ⟨more, hmore, hfirst'⟩ := h'
  refine ⟨taken ++ more, by rw [htaken, hmore, List.append_assoc], ?_⟩
  rw [List.map_append]
  exact hfirst.append hfirst'

theorem advance (hk : s.kind.isTemplate = false) : Clears s s.advance := by
  have htail : s.advance.ahead = s.ahead.tail := rfl
  cases hahead : s.ahead with
  | nil => exact of_ahead_eq (by rw [htail, hahead, List.tail_nil])
  | cons lexed rest =>
    have hkind : s.kind = lexed.token.kind := by simp only [State.kind, State.current, hahead]
    exact ⟨[lexed], by rw [htail, hahead, List.tail_cons, List.singleton_append], .code (hkind ▸ hk)⟩

end Clears

variable {x : HollowText} {pre : Prop} {good : α → Prop} {good' : β → Prop}

/-- How a success from a place is as it should be. No `async` is left to wait for its function. -/
def Spared (s : State) (good : α → Prop) : Outcome α → Prop
  | .ok a t => t.pendingAsync = none ∧ Clears s t ∧ good a
  | .error _ _ => True

/-- An outcome from a place in the text: it moves on and, if the place is as `entry` says, what was made before is as
    it should be and no syntax error is reported, it is as it should be. -/
def SparesFrom (x : HollowText) (entry pre : Prop) (good : α → Prop) (s : State) (o : Outcome α) : Prop :=
  s.ahead <:+ x.tokens → Moves s o.stop ∧ (entry → pre → o.stop.complaints = 0 → Spared s good o)

/-- The same from a place where no `async` waits. -/
abbrev Spares (x : HollowText) (pre : Prop) (good : α → Prop) (s : State) (o : Outcome α) : Prop :=
  SparesFrom x (s.pendingAsync = none) pre good s o

/-- A parser that takes templates whole. -/
def Sparing (x : HollowText) (good : α → Prop) (p : Parser α) : Prop :=
  ∀ (pre : Prop) (s : State), Spares x pre good s (p s)

/-- A parser of expressions, which may start with a function that an `async` waits for. -/
def Leading (x : HollowText) (p : Parser Node) : Prop :=
  ∀ (pre : Prop) (s : State), SparesFrom x (s.pendingAsync = none ∨ s.kind = .kwFunc) pre x.Sound s (p s)

theorem Leading.sparing {p : Parser Node} (h : Leading x p) : Sparing x x.Sound p := by
  intro pre s hs
  obtain ⟨hmoves, hspared⟩ := h pre s hs
  exact ⟨hmoves, fun hidle => hspared (.inl hidle)⟩

namespace SparesFrom
variable {entry : Prop}

theorem fail {err : ParseError} : SparesFrom x entry pre good s (.error err s) :=
  fun _ => ⟨.refl s, fun _ _ _ => trivial⟩

/-- What is done before may take tokens. -/
theorem across {entry' : Prop} {o : Outcome α} (hmoves : Moves s t) (hentry : entry → entry') (hclears : Clears s t)
    (h : SparesFrom x entry' pre good t o) : SparesFrom x entry pre good s o := by
  intro hs
  obtain ⟨hmoves', hspared⟩ := h (hmoves.ahead.trans hs)
  refine ⟨hmoves.trans hmoves', fun henter hpre hquiet => ?_⟩
  have hlast := hspared (hentry henter) hpre hquiet
  cases o with
  | ok a u => exact ⟨hlast.1, hclears.trans hlast.2.1, hlast.2.2⟩
  | error err u => trivial

theorem enter {entry' : Prop} {o : Outcome α} (hentry : entry → entry') (h : SparesFrom x entry' pre good s o) :
    SparesFrom x entry pre good s o := across (.refl s) hentry (.of_ahead_eq rfl) h

/-- One outcome after another. -/
theorem after {a : α} {o : Outcome β} (h : SparesFrom x entry pre good s (.ok a t))
    (h' : Spares x (pre ∧ good a) good' t o) : SparesFrom x entry pre good' s o := by
  intro hs
  obtain ⟨hmoves, hspared⟩ := h hs
  obtain ⟨hmoves', hspared'⟩ := h' (hmoves.ahead.trans hs)
  refine ⟨hmoves.trans hmoves', fun henter hpre hquiet => ?_⟩
  have hearlier : t.complaints = 0 := Nat.le_zero.mp (hquiet ▸ hmoves'.complaints_le)
  obtain ⟨hidle, hclears, ha⟩ := hspared henter hpre hearlier
  have hlast := hspared' hidle ⟨hpre, ha⟩ hquiet
  cases o with
  | ok b u => exact ⟨hlast.1, hclears.trans hlast.2.1, hlast.2.2⟩
  | error err u => trivial

theorem bind {p : Parser α} {g : α → Parser β} (hp : SparesFrom x entry pre good s (p s))
    (hg : ∀ a t, Spares x (pre ∧ good a) good' t (g a t)) : SparesFrom x entry pre good' s ((p >>= g) s) := by
  cases hrun : p s with
  | ok a t =>
    rw [hrun] at hp
    rw [bind_of_ok hrun]
    exact hp.after (hg a t)
  | error err t =>
    rw [hrun] at hp
    rw [bind_of_error hrun]
    exact fun hs => ⟨(hp hs).1, fun _ _ _ => trivial⟩

theorem weaken {pre' : Prop} {o : Outcome α} (h : SparesFrom x entry pre good s o) (hpre : pre' → pre) :
    SparesFrom x entry pre' good s o := by
  intro hs
  obtain ⟨hmoves, hspared⟩ := h hs
  exact ⟨hmoves, fun henter h => hspared henter (hpre h)⟩

/-- A parser that gives nothing to follow. -/
theorem seq {p : Parser α} {g : α → Parser β} (hp : SparesFrom x entry pre (fun _ => True) s (p s))
    (hg : ∀ a t, Spares x pre good' t (g a t)) : SparesFrom x entry pre good' s ((p >>= g) s) :=
  hp.bind fun a t => (hg a t).weaken And.left

theorem ite {c : Prop} [Decidable c] {p q : Parser α} (hp : c → SparesFrom x entry pre good s (p s))
    (hq : ¬c → SparesFrom x entry pre good s (q s)) : SparesFrom x entry pre good s ((if c then p else q) s) := by
  split
  · exact hp ‹_›
  · exact hq ‹_›

/-! ### Looking at tokens -/

theorem here {g : Range → Parser α} (hg : SparesFrom x entry pre good s (g s.current.range s)) :
    SparesFrom x entry pre good s ((Grammar.here >>= g) s) := hg

theorem kind {g : Kind → Parser α} (hg : ∀ k, s.kind = k → SparesFrom x entry pre good s (g k s)) :
    SparesFrom x entry pre good s ((Grammar.kind >>= g) s) := hg s.kind rfl

theorem get {g : State → Parser α} (hg : SparesFrom x entry pre good s (g s s)) :
    SparesFrom x entry pre good s (((MonadState.get : Parser State) >>= g) s) := hg

theorem check {k : Kind} {g : Bool → Parser α}
    (hg : ∀ b, (b = true → s.kind = k) → SparesFrom x entry pre good s (g b s)) :
    SparesFrom x entry pre good s ((Grammar.check k >>= g) s) := hg (s.kind == k) beq_iff_eq.mp

theorem look {p : Parser β} {g : β → Parser α} (hp : Looks p)
    (hg : ∀ b, SparesFrom x entry pre good s (g b s)) : SparesFrom x entry pre good s ((p >>= g) s) := by
  obtain ⟨b, hrun⟩ := hp s
  rw [bind_of_ok hrun]
  exact hg b

theorem finish {start : Range} {g : Range → Parser α} (hg : ∀ range, SparesFrom x entry pre good s (g range s)) :
    SparesFrom x entry pre good s ((Grammar.finish start >>= g) s) := by
  rw [finish_bind]
  exact hg _

theorem unexpected {what : Expectation} : SparesFrom x entry pre good s (Grammar.unexpected what s) := fail

theorem withStructLiterals {allowed : Bool} {p : Parser α}
    (h : SparesFrom x entry pre good { s with structLiterals := allowed } (p { s with structLiterals := allowed })) :
    SparesFrom x entry pre good s (Grammar.withStructLiterals allowed p s) := by
  intro hs
  obtain ⟨hmoves, hspared⟩ := h hs
  unfold Grammar.withStructLiterals
  cases hrun : p { s with structLiterals := allowed } with
  | ok a t =>
    rw [hrun] at hmoves hspared
    exact ⟨hmoves.withStructLiterals, hspared⟩
  | error err t =>
    rw [hrun] at hmoves
    exact ⟨hmoves.withStructLiterals, fun _ _ _ => trivial⟩

theorem nested {p : Parser α}
    (h : SparesFrom x entry pre good { s with depth := s.depth + 1 } (p { s with depth := s.depth + 1 })) :
    SparesFrom x entry pre good s (Grammar.nested p s) := by
  intro hs
  obtain ⟨hmoves, hspared⟩ := h hs
  unfold Grammar.nested
  cases hrun : p { s with depth := s.depth + 1 } with
  | ok a t =>
    rw [hrun] at hmoves hspared
    exact ⟨hmoves.nested, hspared⟩
  | error err t =>
    rw [hrun] at hmoves
    exact ⟨hmoves.nested, fun _ _ _ => trivial⟩

/-! ### Taking tokens and making nodes -/

/-- The nearest token is taken. -/
theorem take {k : Kind} {o : Outcome α} (hkind : s.kind = k) (hk : k.isTemplate = false)
    (h : Spares x pre good s.advance o) : Spares x pre good s o :=
  .across (.advance s) id (.advance (hkind ▸ hk)) h

theorem pure {a : α} (h : pre → good a) : Spares x pre good s ((pure a : Parser α) s) :=
  fun _ => ⟨.refl s, fun hidle hpre _ => ⟨hidle, .of_ahead_eq rfl, h hpre⟩⟩

theorem advance {k : Kind} {g : Token → Parser α} (hkind : s.kind = k) (hk : k.isTemplate = false)
    (hg : Spares x pre good s.advance (g s.current s.advance)) :
    Spares x pre good s ((Grammar.advance >>= g) s) := take hkind hk hg

theorem expect {k : Kind} {g : Token → Parser α} (hk : k.isTemplate = false)
    (hg : ∀ token t, Spares x pre good t (g token t)) : Spares x pre good s ((Grammar.expect k >>= g) s) := by
  rw [expect_bind]
  split
  · exact take ‹s.kind = k› hk (hg _ _)
  · exact .fail

theorem eaten {k : Kind} (hk : k.isTemplate = false) : Spares x pre (fun _ => True) s (Grammar.eat k s) := by
  rw [eat_run]
  split
  · exact take ‹s.kind = k› hk (pure fun _ => trivial)
  · exact pure fun _ => trivial

theorem eat {k : Kind} {g : Bool → Parser α} (hk : k.isTemplate = false)
    (hg : ∀ b t, Spares x pre good t (g b t)) : Spares x pre good s ((Grammar.eat k >>= g) s) :=
  .seq (eaten hk) hg

theorem expectName {g : Ident → Parser α} (hg : ∀ name t, Spares x pre good t (g name t)) :
    Spares x pre good s ((Grammar.expectName >>= g) s) := by
  rw [expectName_bind]
  split
  · exact take ‹s.kind = .name› rfl (hg _ _)
  · exact .fail

/-- A construct with sound parts is a sound node. -/
theorem node {shape : Shape Node} {range : Range} (h : pre → x.SoundParts shape) :
    Spares x pre x.Sound s (Grammar.node shape range s) := by
  refine .across (Moves.identified s) id (.of_ahead_eq rfl) (pure fun hpre => .mk ?_ (h hpre).2)
  rintro parts rfl
  cases (h hpre).1

theorem close {start : Range} {shape : Shape Node} (h : pre → x.SoundParts shape) :
    Spares x pre x.Sound s (Grammar.close start shape s) := .finish fun _ => node h

theorem repeatFrom {step : α → Parser (ForInStep α)}
    (h : ∀ a t, Spares x (good a) (fun r => good r.value) t (step a t)) (a : α) (s : State) :
    Spares x (good a) good s (Grammar.repeatFrom step a s) := by
  fun_induction Grammar.repeatFrom step a s with
  | case1 a s b t hrun | case3 a s b t hrun =>
    have hstep := h a s
    rw [hrun] at hstep
    exact hstep
  | case2 a s b t hrun hlt ih =>
    have hstep := h a s
    rw [hrun] at hstep
    exact hstep.after (ih.weaken And.right)
  | case4 a s err t hrun =>
    have hstep := h a s
    rw [hrun] at hstep
    exact fun hs => ⟨(hstep hs).1, fun _ _ _ => trivial⟩

theorem repeating {step : α → Parser (ForInStep α)} {a : α} (ha : pre → good a)
    (h : ∀ a t, Spares x (good a) (fun r => good r.value) t (step a t)) :
    Spares x pre good s (Grammar.repeating a step s) := (repeatFrom h a s).weaken ha

end SparesFrom

theorem Sparing.nested {p : Parser α} (h : Sparing x good p) : Sparing x good (nested p) :=
  fun pre s => .nested (h pre { s with depth := s.depth + 1 })

theorem Sparing.tooDeep : Sparing x good (tooDeep : Parser α) := fun _ _ => .fail

theorem Leading.nested {p : Parser Node} (h : Leading x p) : Leading x (nested p) :=
  fun pre s => .nested (h pre { s with depth := s.depth + 1 })

theorem Leading.tooDeep : Leading x tooDeep := fun _ _ => .fail

/-! ### Lists and optional parts -/

namespace SparesFrom

theorem listStep {closing : Kind} {item : Parser Node} (h : Sparing x x.Sound item) (items : Array Node) :
    Spares x (x.AllSound items.toList) (fun r => x.AllSound r.value.toList) s
      (Grammar.listStep closing item items s) := by
  refine .check fun _ _ => .ite (fun _ => pure id) fun _ => .bind (h _ s) fun n t => ?_
  refine eat rfl fun b u => .ite (fun _ => pure ?_) fun _ => pure ?_
  · exact fun ⟨hitems, hn⟩ => hitems.push hn
  · exact fun ⟨hitems, hn⟩ => hitems.push hn

theorem list {closing : Kind} {item : Parser Node} (hk : closing.isTemplate = false) (h : Sparing x x.Sound item) :
    Spares x pre x.AllSound s (Grammar.list closing item s) :=
  .withStructLiterals (.bind (repeating (fun _ => HollowText.AllSound.nil) fun items _ => listStep h items)
    fun _ _ => expect hk fun _ _ => pure And.right)

theorem optionalAfter {k : Kind} {item : Parser Node} (hk : k.isTemplate = false) (h : Sparing x x.Sound item) :
    Spares x pre (fun found => x.AllSound found.toList) s (Grammar.optionalAfter k item s) := by
  refine eat hk fun b t => .ite (fun _ => ?_) fun _ => pure fun _ => .nil
  exact .bind (h _ t) fun n u => pure fun ⟨_, hn⟩ => .single hn

end SparesFrom

/-- What the rules one level deeper do with templates, and what else is known of them. -/
structure Rules.Spare (r : Rules) (x : HollowText) : Prop where
  expression : Leading x r.expression
  type : Sparing x x.Sound r.type
  statement : Sparing x x.Sound r.statement
  block : Sparing x x.Sound r.block
  structMember : Sparing x x.Sound r.structMember
  operand (limit : Nat) : Sparing x x.Sound (r.operand limit)
  unary : Sparing x x.Sound r.unary
  elseIf : Sparing x x.Sound r.elseIf
  moves : ∀ depth, r.Agree depth r
  reads : r.Read
  settles : r.Settle x.source

theorem Rules.Spare.value {r : Rules} (h : r.Spare x) : Sparing x x.Sound r.expression := h.expression.sparing

end Grammar

end BraceLang
