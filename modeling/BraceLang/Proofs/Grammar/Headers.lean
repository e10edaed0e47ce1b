import BraceLang.Proofs.Grammar.Agreement
import BraceLang.Proofs.Node.Exposed

/-! Whether struct literals may start. A parser that heeds it leaves it as it was, failed or not, and gives what
    is as it asks (`Heeds`): where none may start, nodes are bare. Only `withStructLiterals` changes it, around
    what is closed in by brackets and around the conditions of headers. -/

namespace BraceLang.Grammar

variable {α β : Type} {allowed : Bool} {P : α → Prop} {R : β → Prop} {s t : State}

/-- The outcome leaves it at `allowed` whether struct literals may start, and a success is as the condition
    says. -/
def Outcome.Heeds (allowed : Bool) (P : α → Prop) : Outcome α → Prop
  | .ok a t => t.structLiterals = allowed ∧ P a
  | .error _ t => t.structLiterals = allowed

/-- Where struct literals may start or not, as `allowed` says, the parser leaves it so, and what it gives is as
    the condition says. -/
def Heeds (allowed : Bool) (P : α → Prop) (p : Parser α) : Prop :=
  ∀ s, s.structLiterals = allowed → Outcome.Heeds allowed P (p s)

/-- The parser gives fit nodes. -/
def Offers (allowed free : Bool) (p : Parser Node) : Prop := Heeds allowed (Node.Fit free) p

namespace Heeds

/-! ### Sequences and branches -/

theorem pure {a : α} (ha : P a) : Heeds allowed P (pure a) := fun _ hs => ⟨hs, ha⟩

theorem mono {Q : α → Prop} {p : Parser α} (h : Heeds allowed P p) (hPQ : ∀ a, P a → Q a) : Heeds allowed Q p := by
  intro s hs
  have heeds := h s hs
  cases hrun : p s with
  | ok a t =>
    rw [hrun] at heeds
    exact ⟨heeds.1, hPQ a heeds.2⟩
  | error e t =>
    rw [hrun] at heeds
    exact heeds

theorem bind {p : Parser α} {f : α → Parser β} (hp : Heeds allowed P p) (hf : ∀ a, P a → Heeds allowed R (f a)) :
    Heeds allowed R (p >>= f) := by
  intro s hs
  have heeds := hp s hs
  cases hrun : p s with
  | ok a t =>
    rw [hrun] at heeds
    rw [bind_of_ok hrun]
    exact hf a heeds.2 t heeds.1
  | error e t =>
    rw [hrun] at heeds
    rw [bind_of_error hrun]
    exact heeds

theorem ite {c : Prop} [Decidable c] {p q : Parser α} (hp : Heeds allowed P p) (hq : Heeds allowed P q) :
    Heeds allowed P (if c then p else q) := by
  split
  · exact hp
  · exact hq

theorem unexpected {what : Expectation} : Heeds allowed P (unexpected what : Parser α) := fun _ hs => hs

theorem tooDeep : Heeds allowed P (tooDeep : Parser α) := fun _ hs => hs

/-- A parser that moves on leaves it as it is whether struct literals may start. -/
theorem moving {p : Parser α} (h : ∀ depth, Agrees depth p p) : Heeds allowed (fun _ => True) p := by
  intro s hs
  have moves := (h s.depth s rfl).2
  cases hrun : p s with
  | ok a t =>
    rw [hrun] at moves
    exact ⟨moves.structLiterals.trans hs, trivial⟩
  | error e t =>
    rw [hrun] at moves
    exact moves.structLiterals.trans hs

/-- A parser that gives nothing to follow. -/
theorem seq {p : Parser α} {f : α → Parser β} (hp : Plain p) (hf : ∀ a, Heeds allowed R (f a)) :
    Heeds allowed R (p >>= f) := bind (moving fun _ => hp.agrees) fun a _ => hf a

/-! ### The actions -/

theorem get {f : State → Parser β} (hf : ∀ s : State, s.structLiterals = allowed → Heeds allowed R (f s)) :
    Heeds allowed R (get >>= f) := fun s hs => hf s hs s hs

theorem kind {f : Kind → Parser β} (hf : ∀ k, Heeds allowed R (f k)) : Heeds allowed R (kind >>= f) :=
  seq .kind hf

theorem peek {n : Nat} {f : Kind → Parser β} (hf : ∀ k, Heeds allowed R (f k)) : Heeds allowed R (peek n >>= f) :=
  seq .peek hf

theorem check {k : Kind} {f : Bool → Parser β} (hf : ∀ b, Heeds allowed R (f b)) :
    Heeds allowed R (check k >>= f) := seq .check hf

theorem here {f : Range → Parser β} (hf : ∀ range, Heeds allowed R (f range)) : Heeds allowed R (here >>= f) :=
  seq .here hf

theorem advance {f : Token → Parser β} (hf : ∀ token, Heeds allowed R (f token)) :
    Heeds allowed R (advance >>= f) := seq .advance hf

theorem eat {k : Kind} {f : Bool → Parser β} (hf : ∀ b, Heeds allowed R (f b)) : Heeds allowed R (eat k >>= f) :=
  seq .eat hf

theorem expect {k : Kind} {f : Token → Parser β} (hf : ∀ token, Heeds allowed R (f token)) :
    Heeds allowed R (expect k >>= f) := seq .expect hf

theorem name {f : Ident → Parser β} (hf : ∀ name, Heeds allowed R (f name)) : Heeds allowed R (expectName >>= f) :=
  seq .expectName hf

theorem node {free : Bool} {shape : Shape Node} {range : Range} (h : shape.Fit free) :
    Offers allowed free (node shape range) := fun _ hs => ⟨hs, h.node⟩

theorem close {free : Bool} {shape : Shape Node} {start : Range} (h : shape.Fit free) :
    Offers allowed free (close start shape) := seq .finish fun _ => node h

/-! ### Combinations -/

/-- Whatever may start inside, outside it is as before. -/
theorem withStructLiterals {inside : Bool} {p : Parser α} (h : Heeds inside P p) :
    Heeds allowed P (withStructLiterals inside p) := by
  intro s hs
  have heeds := h { s with structLiterals := inside } rfl
  unfold Grammar.withStructLiterals
  cases hrun : p { s with structLiterals := inside } with
  | ok a t =>
    rw [hrun] at heeds
    exact ⟨hs, heeds.2⟩
  | error e t => exact hs

theorem nested {p : Parser α} (h : Heeds allowed P p) : Heeds allowed P (nested p) := by
  intro s hs
  have heeds := h { s with depth := s.depth + 1 } hs
  unfold Grammar.nested
  cases hrun : p { s with depth := s.depth + 1 } with
  | ok a t =>
    rw [hrun] at heeds
    exact heeds
  | error e t =>
    rw [hrun] at heeds
    exact heeds

theorem attempt {p : Parser α} {f : Except ParseError α → Parser β} (h : Heeds allowed P p)
    (hok : ∀ a, P a → Heeds allowed R (f (.ok a))) (herror : ∀ e, Heeds allowed R (f (.error e))) :
    Heeds allowed R (attempt p >>= f) := by
  intro s hs
  have heeds := h s hs
  cases hrun : p s with
  | ok a t =>
    rw [hrun] at heeds
    rw [bind_of_ok (a := .ok a) (t := t) (by rw [Grammar.attempt, hrun])]
    exact hok a heeds.2 t heeds.1
  | error e t =>
    rw [hrun] at heeds
    rw [bind_of_ok (a := .error e) (t := t) (by rw [Grammar.attempt, hrun])]
    exact herror e t heeds

/-- What one step of a loop keeps, the loop keeps. -/
theorem repeating {a : α} {step : α → Parser (ForInStep α)} (ha : P a)
    (h : ∀ a, P a → Heeds allowed (fun r => P r.value) (step a)) : Heeds allowed P (repeating a step) := by
  intro s hs
  show Outcome.Heeds allowed P (repeatFrom step a s)
  fun_induction repeatFrom step a s with
  | case1 a s b t hstep | case3 a s b t hstep =>
    have heeds := h a ha s hs
    rw [hstep] at heeds
    exact heeds
  | case2 a s b t hstep _ ih =>
    have heeds := h a ha s hs
    rw [hstep] at heeds
    exact ih heeds.2 heeds.1
  | case4 a s e t hstep =>
    have heeds := h a ha s hs
    rw [hstep] at heeds
    exact heeds

/-- A loop that collects fit nodes. -/
theorem collecting (free : Bool) {items : Array Node} {step : Array Node → Parser (ForInStep (Array Node))}
    (hitems : AllFit free items.toList)
    (h : ∀ items, AllFit free items.toList → Heeds allowed (fun r => AllFit free r.value.toList) (step items)) :
    Heeds allowed (fun items => AllFit free items.toList) (Grammar.repeating items step) := repeating hitems h

/-- The items of a list stand between brackets, so struct literals may start in them. -/
theorem list {free : Bool} {closing : Kind} {item : Parser Node} (h : Offers true free item) :
    Heeds allowed (AllFit free) (list closing item) := by
  refine .withStructLiterals (.bind (.collecting free .nil fun items hitems => ?_) fun items hitems => ?_)
  · refine .check fun _ => .ite (.pure hitems) (.bind h fun n hn => .eat fun _ => ?_)
    exact .ite (.pure (hitems.push hn)) (.pure (hitems.push hn))
  · exact .expect fun _ => .pure hitems

theorem optionalAfter {free : Bool} {k : Kind} {item : Parser Node} (h : Offers allowed free item) :
    Heeds allowed (fun found => AllFit free found.toList) (optionalAfter k item) :=
  .eat fun _ => .ite (.bind h fun _ hn => .pure (.one hn)) (.pure .nil)

end Heeds

/-- Types and blocks are bare wherever they stand, expressions where no struct literal may start. -/
structure Rules.Heed (r : Rules) : Prop where
  expression {allowed : Bool} : Offers allowed allowed r.expression
  type {allowed : Bool} : Offers allowed false r.type
  statement {allowed : Bool} : Offers allowed true r.statement
  block {allowed : Bool} : Offers allowed false r.block
  structMember {allowed : Bool} : Offers allowed true r.structMember
  operand {allowed : Bool} (limit : Nat) : Offers allowed allowed (r.operand limit)
  unary {allowed : Bool} : Offers allowed allowed r.unary
  elseIf {allowed : Bool} : Offers allowed true r.elseIf

end BraceLang.Grammar
