import BraceLang.Proofs.Grammar.Levels
import BraceLang.Proofs.Node.Slots

/-! What a parser makes. The nodes that are kept between two places are made one after another, parts
    before the node they belong to, each well formed and each with the next identity; others are thrown
    away only if a syntax error is reported (`Makes`). Whatever is to be known of the nodes of a parsed
    program follows from this history by induction.

    A parser that succeeds has made what it gives: `Gives` follows the nodes made so far, each in the slot
    it is meant for, and a node is closed when they are the parts of its construct. -/

namespace BraceLang

/-- Whether a kind is a keyword that leaves a function or an iteration. -/
def Kind.isJump : Kind → Bool
  | kwReturn | kwBreak | kwContinue => true
  | _ => false

/-- Whether a construct leaves a function or an iteration. -/
def Shape.isJump {α : Type} : Shape α → Bool
  | returned _ | broken | continued => true
  | _ => false

namespace Grammar

variable {α β : Type} {s t u o : State} {ns ms : List Node}

/-! ### Histories -/

/-- From one place to another nothing is kept; without a syntax error nothing is made either. -/
structure Passes (s t : State) : Prop where
  ahead : t.ahead <:+ s.ahead
  complaints : s.complaints ≤ t.complaints
  nextId : s.nextId ≤ t.nextId
  exact : t.complaints = s.complaints → t.nextId = s.nextId

/-- The nodes that are made and kept from one place to another, in order. -/
inductive Makes : State → List Node → State → Prop where
  | pass {s t : State} (h : Passes s t) : Makes s [] t
  | both {s t u : State} {ns ms : List Node} (first : Makes s ns t) (second : Makes t ms u) :
    Makes s (ns ++ ms) u
  | node {s t : State} {shape : Shape Node} {range : Range} (parts : Makes s shape.toList t)
    (formed : shape.WellFormed) (plain : shape.isJump = false) :
    Makes s [⟨t.nextId, range, none, shape⟩] t.identified
  /-- A jump begins at its keyword. -/
  | jump {s t : State} {shape : Shape Node} (keyword : s.kind.isJump = true)
    (parts : Makes s.advance shape.toList t) (formed : shape.WellFormed) (jumps : shape.isJump = true) :
    Makes s [⟨t.nextId, t.rangeFrom s.current.range, none, shape⟩] t.identified

namespace Passes

theorem of_moves (h : Moves s t) (hid : t.nextId = s.nextId) : Passes s t :=
  ⟨h.ahead, h.complaints_le, Nat.le_of_eq hid.symm, fun _ => hid⟩

theorem advance (s : State) : Passes s s.advance := of_moves (.advance s) rfl

theorem setPendingAsync (s : State) (pending : Option Range) : Passes s { s with pendingAsync := pending } :=
  of_moves (.setPendingAsync s pending) rfl

/-- Only what is neither a token, an identity nor a report changes. -/
theorem of_eq (hahead : t.ahead = s.ahead) (hid : t.nextId = s.nextId) (hlog : t.log = s.log) :
    Passes s t where
  ahead := hahead ▸ List.suffix_refl _
  complaints := Nat.le_of_eq (by rw [State.complaints, State.complaints, hlog])
  nextId := Nat.le_of_eq hid.symm
  exact _ := hid

/-- What is made on the way to a syntax error may be thrown away. -/
theorem of_complaint (h : Moves s t) (hcomplaint : s.complaints < t.complaints) : Passes s t :=
  ⟨h.ahead, h.complaints_le, h.nextId, fun heq => absurd heq (Nat.ne_of_gt hcomplaint)⟩

end Passes

namespace Makes

theorem refl (s : State) : Makes s [] s := pass (.of_eq rfl rfl rfl)

theorem before (h' : Makes t ns u) (h : Passes s t) : Makes s ns u := both (pass h) h'

theorem after (h : Makes s ns t) (h' : Passes t u) : Makes s ns u := by
  have hboth := both h (pass h')
  rwa [List.append_nil] at hboth

end Makes

/-! ### Nodes at hand -/

/-- What has been made since a place, each node in the slot it is meant for. -/
structure Kept (o : State) (hand : List (Slot × Node)) (s : State) : Prop where
  makes : Makes o (hand.map Prod.snd) s
  holds : ∀ p ∈ hand, p.1.holds p.2.shape = true

namespace Kept
variable {hand more : List (Slot × Node)} {shape : Shape Node}

theorem refl (s : State) : Kept s [] s := ⟨.refl s, List.forall_mem_nil _⟩

theorem after (h : Kept o hand s) (h' : Passes s t) : Kept o hand t := { h with makes := h.makes.after h' }

theorem before (h : Passes s t) (h' : Kept t hand u) : Kept s hand u where
  makes := h'.makes.before h
  holds := h'.holds

theorem append (h : Kept o hand s) (h' : Kept s more t) : Kept o (hand ++ more) t where
  makes := by
    rw [List.map_append]
    exact h.makes.both h'.makes
  holds := List.forall_mem_append.mpr ⟨h.holds, h'.holds⟩

theorem wellFormed (h : Kept o shape.slots s) (hlawful : shape.Lawful) : shape.WellFormed := ⟨hlawful, h.holds⟩

theorem parts (h : Kept o shape.slots s) : Makes o shape.toList s := by
  have hmakes := h.makes
  rwa [Shape.map_snd_slots] at hmakes

theorem node {slot : Slot} {range : Range} (h : Kept o shape.slots s) (hlawful : shape.Lawful)
    (hplain : shape.isJump = false) (hslot : slot.holds shape = true) :
    Kept o [(slot, ⟨s.nextId, range, none, shape⟩)] s.identified where
  makes := h.parts.node (h.wellFormed hlawful) hplain
  holds := by
    intro p hp
    obtain rfl := List.mem_singleton.mp hp
    exact hslot

end Kept

/-! ### Accounts -/

variable {hand : List (Slot × Node)} {view : α → List (Slot × Node)} {view' : β → List (Slot × Node)}
  {good : α → Prop} {good' : β → Prop}

/-- An outcome from a place where these nodes are at hand: if it is a success, then those it gives are. -/
def Gives (o : State) (hand : List (Slot × Node)) (view : α → List (Slot × Node)) (good : α → Prop) (s : State)
    (outcome : Outcome α) : Prop :=
  Kept o hand s → ∀ a t, outcome = .ok a t → Kept o (view a) t ∧ good a

/-- A parser that makes what it gives, wherever it starts. -/
def Produces (view : α → List (Slot × Node)) (good : α → Prop) (p : Parser α) : Prop :=
  ∀ s, Gives s [] view good s (p s)

/-- A parser that makes a node for a slot. -/
def Fills (slot : Slot) (p : Parser Node) : Prop := Produces (fun n => [(slot, n)]) (fun _ => True) p

/-- A parser that makes the parts of a construct that may stand in a slot. -/
def Forms (slot : Slot) (p : Parser (Shape Node)) : Prop :=
  Produces Shape.slots (fun shape => shape.Lawful ∧ shape.isJump = false ∧ slot.holds shape = true) p

namespace Gives

theorem fail {e : ParseError} : Gives o hand view good s (.error e t) := by
  intro _ a t h
  cases h

theorem across {outcome : Outcome α} (h : Passes s t) (h' : Gives o hand view good t outcome) :
    Gives o hand view good s outcome := fun hkept => h' (hkept.after h)

theorem pure {a : α} (ha : good a) (hview : view a = hand) :
    Gives o hand view good s ((pure a : Parser α) s) := by
  rintro hkept b t ⟨⟩
  exact ⟨hview ▸ hkept, ha⟩

theorem weaken {good' : α → Prop} {outcome : Outcome α} (h : Gives o hand view good s outcome)
    (hgood : ∀ a, good a → good' a) : Gives o hand view good' s outcome := by
  intro hkept a t hok
  obtain ⟨hview, ha⟩ := h hkept a t hok
  exact ⟨hview, hgood a ha⟩

theorem bind {p : Parser α} {g : α → Parser β} (hp : Gives o hand view good s (p s))
    (hg : ∀ a t, good a → Gives o (view a) view' good' t (g a t)) :
    Gives o hand view' good' s ((p >>= g) s) := by
  intro hkept b u hok
  obtain ⟨a, t, hrun, hrest⟩ := bind_eq_ok.mp hok
  obtain ⟨hview, ha⟩ := hp hkept a t hrun
  exact hg a t ha hview b u hrest

theorem ite {c : Prop} [Decidable c] {p q : Parser α} (hp : c → Gives o hand view good s (p s))
    (hq : ¬c → Gives o hand view good s (q s)) : Gives o hand view good s ((if c then p else q) s) := by
  split
  · exact hp ‹_›
  · exact hq ‹_›

end Gives

namespace Produces

/-- What a parser makes is added to what is at hand. -/
theorem gives {p : Parser α} (h : Produces view good p) :
    Gives o hand (fun a => hand ++ view a) good s (p s) := by
  intro hkept a t hok
  obtain ⟨hview, ha⟩ := h s (.refl s) a t hok
  exact ⟨hkept.append hview, ha⟩

theorem nested {p : Parser α} (h : Produces view good p) : Produces view good (nested p) := by
  intro s hkept a t hok
  obtain ⟨u, hrun, rfl⟩ := nested_eq_ok.mp hok
  obtain ⟨hview, ha⟩ := h { s with depth := s.depth + 1 } (.refl _) a u hrun
  have hinto : Passes s { s with depth := s.depth + 1 } := .of_eq rfl rfl rfl
  have hout : Passes u { u with depth := u.depth - 1 } := .of_eq rfl rfl rfl
  exact ⟨(hview.after hout).before hinto, ha⟩

theorem tooDeep : Produces view good (tooDeep : Parser α) := fun _ => .fail

end Produces

namespace Gives

/-- A parser that makes something in front of another. -/
theorem rule {p : Parser α} {g : α → Parser β} (hp : Produces view good p)
    (hg : ∀ a t, good a → Gives o (hand ++ view a) view' good' t (g a t)) :
    Gives o hand view' good' s ((p >>= g) s) := bind hp.gives hg

/-- A parser that makes nothing in front of another. -/
theorem skip {p : Parser α} {g : α → Parser β} (hp : Produces (fun _ => []) good p)
    (hg : ∀ a t, good a → Gives o hand view' good' t (g a t)) :
    Gives o hand view' good' s ((p >>= g) s) :=
  rule hp fun a t ha => by
    rw [List.append_nil]
    exact hg a t ha

/-! ### The actions -/

theorem here {g : Range → Parser α} (hg : Gives o hand view good s (g s.current.range s)) :
    Gives o hand view good s ((Grammar.here >>= g) s) := hg

theorem kind {g : Kind → Parser α} (hg : ∀ k, s.kind = k → Gives o hand view good s (g k s)) :
    Gives o hand view good s ((Grammar.kind >>= g) s) := hg s.kind rfl

theorem get {g : State → Parser α} (hg : Gives o hand view good s (g s s)) :
    Gives o hand view good s (((MonadState.get : Parser State) >>= g) s) := hg

theorem check {k : Kind} {g : Bool → Parser α}
    (hg : ∀ b, (b = true ↔ s.kind = k) → Gives o hand view good s (g b s)) :
    Gives o hand view good s ((Grammar.check k >>= g) s) := hg (s.kind == k) beq_iff_eq

theorem look {p : Parser β} {g : β → Parser α} (hp : Looks p) (hg : ∀ b, Gives o hand view good s (g b s)) :
    Gives o hand view good s ((p >>= g) s) := by
  obtain ⟨b, hrun⟩ := hp s
  rw [bind_of_ok hrun]
  exact hg b

theorem advance {g : Token → Parser α} (hg : Gives o hand view good s.advance (g s.current s.advance)) :
    Gives o hand view good s ((Grammar.advance >>= g) s) := across (.advance s) hg

theorem eaten {k : Kind} : Gives o hand (fun _ => hand) (fun _ => True) s (Grammar.eat k s) := by
  rw [eat_run]
  split
  · exact across (.advance s) (pure trivial rfl)
  · exact pure trivial rfl

theorem eat {k : Kind} {g : Bool → Parser α}
    (hg : ∀ b t, (b = true ↔ s.kind = k) → Gives o hand view good t (g b t)) :
    Gives o hand view good s ((Grammar.eat k >>= g) s) := by
  rw [eat_bind]
  split
  · exact across (.advance s) (hg true s.advance (iff_of_true rfl ‹_›))
  · exact hg false s (iff_of_false Bool.false_ne_true ‹_›)

theorem expect {k : Kind} {g : Token → Parser α} (hg : ∀ token t, Gives o hand view good t (g token t)) :
    Gives o hand view good s ((Grammar.expect k >>= g) s) := by
  intro hkept a u hok
  obtain ⟨token, t, hrun, hrest⟩ := bind_eq_ok.mp hok
  obtain ⟨-, -, rfl⟩ := expect_eq_ok.mp hrun
  exact hg token _ (hkept.after (.advance s)) a u hrest

theorem expectName {g : Ident → Parser α} (hg : ∀ name t, Gives o hand view good t (g name t)) :
    Gives o hand view good s ((Grammar.expectName >>= g) s) := by
  intro hkept a u hok
  obtain ⟨name, t, hrun, hrest⟩ := bind_eq_ok.mp hok
  obtain ⟨-, -, rfl⟩ := expectName_eq_ok.mp hrun
  exact hg name _ (hkept.after (.advance s)) a u hrest

theorem finish {start : Range} {g : Range → Parser α} (hg : ∀ range, Gives o hand view good s (g range s)) :
    Gives o hand view good s ((Grammar.finish start >>= g) s) := by
  rw [finish_bind]
  exact hg _

theorem unexpected {what : Expectation} : Gives o hand view good s (Grammar.unexpected what s) := fail

/-- The parts of a construct are at hand, and become a node. -/
theorem node {slot : Slot} {shape : Shape Node} {range : Range} (hlawful : shape.Lawful)
    (hslots : shape.slots = hand) (hplain : shape.isJump = false) (hslot : slot.holds shape = true) :
    Gives o hand (fun n => [(slot, n)]) (fun _ => True) s (Grammar.node shape range s) := by
  intro hkept n t hok
  obtain ⟨rfl, rfl⟩ := node_eq_ok.mp hok
  rw [← hslots] at hkept
  exact ⟨hkept.node hlawful hplain hslot, trivial⟩

theorem close {slot : Slot} {shape : Shape Node} {start : Range} (hlawful : shape.Lawful)
    (hslots : shape.slots = hand) (hplain : shape.isJump = false) (hslot : slot.holds shape = true) :
    Gives o hand (fun n => [(slot, n)]) (fun _ => True) s (Grammar.close start shape s) :=
  finish fun _ => node hlawful hslots hplain hslot

/-! ### Combinations -/

theorem withStructLiterals {allowed : Bool} {p : Parser α} (h : ∀ s, Gives o hand view good s (p s)) :
    Gives o hand view good s (Grammar.withStructLiterals allowed p s) := by
  intro hkept a t hok
  obtain ⟨u, hrun, rfl⟩ := withStructLiterals_eq_ok.mp hok
  obtain ⟨hview, ha⟩ := h { s with structLiterals := allowed } (hkept.after (.of_eq rfl rfl rfl)) a u hrun
  exact ⟨hview.after (.of_eq rfl rfl rfl), ha⟩

/-- A loop, of which the first step may be special. -/
theorem repeatFrom {step : α → Parser (ForInStep α)} {a : α}
    (hfirst : Gives o hand (fun r => view r.value) (fun r => good r.value) s (step a s))
    (h : ∀ a t, good a → Gives o (view a) (fun r => view r.value) (fun r => good r.value) t (step a t)) :
    Gives o hand view good s (Grammar.repeatFrom step a s) := by
  fun_induction Grammar.repeatFrom step a s generalizing hand with
  | case1 a s b t hrun | case3 a s b t hrun =>
    rintro hkept c u ⟨⟩
    exact hfirst hkept _ _ hrun
  | case2 a s b t hrun hlt ih =>
    intro hkept c u hok
    obtain ⟨hview, hb⟩ := hfirst hkept _ _ hrun
    exact ih (h b t hb) hview c u hok
  | case4 a s e t hrun => exact fail

theorem repeating {step : α → Parser (ForInStep α)} {a : α} (ha : good a) (hview : view a = hand)
    (h : ∀ a t, good a → Gives o (view a) (fun r => view r.value) (fun r => good r.value) t (step a t)) :
    Gives o hand view good s (Grammar.repeating a step s) := by
  subst hview
  exact repeatFrom (h a s ha) h

end Gives

/-! ### Nodes, lists and optional parts -/

/-- A node made for a slot may be used in another that holds all the slot holds. -/
theorem Fills.recast {slot slot' : Slot} {p : Parser Node} (h : Fills slot p)
    (hslot : ∀ shape : Shape Node, slot.holds shape = true → slot'.holds shape = true) : Fills slot' p := by
  intro s hkept n t hok
  obtain ⟨hn, -⟩ := h s hkept n t hok
  refine ⟨⟨hn.makes, fun p hp => ?_⟩, trivial⟩
  obtain rfl := List.mem_singleton.mp hp
  exact hslot _ (hn.holds _ (List.mem_singleton_self _))

theorem Gives.promote {slot slot' : Slot} {n : Node}
    (hslot : ∀ shape : Shape Node, slot.holds shape = true → slot'.holds shape = true) :
    Gives o [(slot, n)] (fun n => [(slot', n)]) (fun _ => True) s ((Pure.pure n : Parser Node) s) := by
  rintro hkept m t ⟨⟩
  refine ⟨⟨hkept.makes, fun p hp => ?_⟩, trivial⟩
  obtain rfl := List.mem_singleton.mp hp
  exact hslot _ (hkept.holds _ (List.mem_singleton_self _))

theorem Fills.leaf {slot : Slot} {shape : Shape Node} {range : Range} (hlawful : shape.Lawful)
    (hslots : shape.slots = []) (hplain : shape.isJump = false) (hslot : slot.holds shape = true) :
    Fills slot (node shape range) := fun _ => .node hlawful hslots hplain hslot

namespace Produces
variable {slot : Slot}

theorem listStep {closing : Kind} {item : Parser Node} (h : Fills slot item) (items : Array Node) :
    Gives o (each slot items.toList) (fun step => each slot step.value.toList) (fun _ => True) s
      (listStep closing item items s) := by
  refine .check fun _ _ => .ite (fun _ => .pure trivial rfl) fun _ => .rule h fun n t _ => ?_
  refine .eat fun _ _ _ => .ite (fun _ => .pure trivial ?_) fun _ => .pure trivial ?_
  · simp [ForInStep.value]
  · simp [ForInStep.value]

theorem list {closing : Kind} {item : Parser Node} (h : Fills slot item) :
    Produces (each slot) (fun _ => True) (list closing item) := by
  refine fun s => .withStructLiterals fun t => ?_
  have hitems : Gives s [] (fun items : Array Node => each slot items.toList) (fun _ => True) t
      (repeating #[] (Grammar.listStep closing item) t) :=
    .repeating trivial rfl fun items _ _ => listStep h items
  exact .bind hitems fun _ _ _ => .expect fun _ _ => .pure trivial rfl

theorem optionalAfter {k : Kind} {item : Parser Node} (h : Fills slot item) :
    Produces (fun found => each slot found.toList) (fun _ => True) (optionalAfter k item) :=
  fun _ => .eat fun _ _ _ => .ite
    (fun _ => .rule h fun _ _ _ => .pure trivial rfl)
    fun _ => .pure trivial rfl

end Produces

/-- What the rules one level deeper make. -/
structure Rules.Produce (r : Rules) : Prop where
  expression : Fills .value r.expression
  type : Fills .type r.type
  statement : Fills .statement r.statement
  block : Fills .block r.block
  structMember : Fills .structMember r.structMember
  operand (limit : Nat) : Fills .value (r.operand limit)
  unary : Fills .value r.unary
  elseIf : Fills .branch r.elseIf
  /-- Also a statement that fails moves on. -/
  moves : ∀ depth, Agrees depth r.statement r.statement

end Grammar

end BraceLang
