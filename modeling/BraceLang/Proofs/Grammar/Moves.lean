import BraceLang.Proofs.Grammar.Outcome

/-! How parsers move. Whatever a parser does, and failed or not, it stops further on in the same stream
    with nothing taken back, and with nesting and struct literals as they were (`Moves`).

    Two parsers do the same from places of one kind, and the places they stop at, failed or not, are of known
    kinds again (`Carries`). Two parsers agree at a nesting if they do the same wherever that many constructs
    are open (`Agrees`). The grammar refers to its rules only at the nesting it was entered with, so rules that
    agree there give parsers that agree. -/

namespace BraceLang.Grammar

variable {α β : Type} {s t u : State}

/-- The second place can be reached from the first. -/
structure Moves (s t : State) : Prop where
  ahead : t.ahead <:+ s.ahead
  eof : t.eof = s.eof
  depth : t.depth = s.depth
  structLiterals : t.structLiterals = s.structLiterals
  nextId : s.nextId ≤ t.nextId
  log : s.log.toList <+: t.log.toList

namespace Moves

theorem refl (s : State) : Moves s s :=
  ⟨List.suffix_refl _, rfl, rfl, rfl, Nat.le_refl _, List.prefix_refl _⟩

theorem trans (h : Moves s t) (h' : Moves t u) : Moves s u where
  ahead := h'.ahead.trans h.ahead
  eof := h'.eof.trans h.eof
  depth := h'.depth.trans h.depth
  structLiterals := h'.structLiterals.trans h.structLiterals
  nextId := Nat.le_trans h.nextId h'.nextId
  log := h.log.trans h'.log

theorem advance (s : State) : Moves s s.advance where
  ahead := List.tail_suffix _
  eof := rfl
  depth := rfl
  structLiterals := rfl
  nextId := Nat.le_refl _
  log := by simp [State.advance]

theorem identified (s : State) : Moves s s.identified :=
  ⟨List.suffix_refl _, rfl, rfl, rfl, Nat.le_succ _, List.prefix_refl _⟩

theorem report (s : State) (e : ParseError) :
    Moves s { s with log := s.log.push e.toDiagnostic } where
  ahead := List.suffix_refl _
  eof := rfl
  depth := rfl
  structLiterals := rfl
  nextId := Nat.le_refl _
  log := by simp

theorem setPendingAsync (s : State) (pending : Option Range) :
    Moves s { s with pendingAsync := pending } :=
  ⟨List.suffix_refl _, rfl, rfl, rfl, Nat.le_refl _, List.prefix_refl _⟩

theorem remaining_le (h : Moves s t) : t.remaining ≤ s.remaining := by
  rw [s.remaining_eq, t.remaining_eq]
  exact h.ahead.length_le

/-- What was done inside a construct stays when struct literals are allowed as before again. -/
theorem withStructLiterals {allowed : Bool} (h : Moves { s with structLiterals := allowed } t) :
    Moves s { t with structLiterals := s.structLiterals } :=
  ⟨h.ahead, h.eof, h.depth, rfl, h.nextId, h.log⟩

theorem nested (h : Moves { s with depth := s.depth + 1 } t) :
    Moves s { t with depth := t.depth - 1 } where
  ahead := h.ahead
  eof := h.eof
  depth := by simp [h.depth]
  structLiterals := h.structLiterals
  nextId := h.nextId
  log := h.log

end Moves

/-! ### Two parsers from places of one kind -/

/-- The parser stopped where the first condition holds or, failed, where the second does. -/
def Outcome.Ends (J E : State → Prop) : Outcome α → Prop
  | .ok _ t => J t
  | .error _ t => E t

theorem Outcome.ends_iff_stop {I : State → Prop} {o : Outcome α} : o.Ends I I ↔ I o.stop := by
  cases o <;> rfl

/-- Wherever the first condition holds, the two parsers do the same: they move on to where the second holds or,
    failed, to where the third does. -/
def Carries (I J E : State → Prop) (p q : Parser α) : Prop :=
  ∀ s, I s → q s = p s ∧ Moves s (Outcome.stop (p s)) ∧ Outcome.Ends J E (p s)

namespace Carries
variable {I J K E : State → Prop} {p q : Parser α}

theorem mono {I' J' E' : State → Prop} (h : Carries I J E p q) (hI : ∀ s, I' s → I s) (hJ : ∀ s, J s → J' s)
    (hE : ∀ s, E s → E' s) : Carries I' J' E' p q := by
  intro s hs
  obtain ⟨heq, hmoves, hends⟩ := h s (hI s hs)
  refine ⟨heq, hmoves, ?_⟩
  cases hrun : p s with
  | ok a t =>
    rw [hrun] at hends
    exact hJ t hends
  | error e t =>
    rw [hrun] at hends
    exact hE t hends

theorem pure {a : α} : Carries I I E (pure a : Parser α) (Pure.pure a) := fun s hs => ⟨rfl, .refl s, hs⟩

theorem bind {f g : α → Parser β} (hp : Carries I J E p q) (hf : ∀ a, Carries J K E (f a) (g a)) :
    Carries I K E (p >>= f) (q >>= g) := by
  intro s hs
  obtain ⟨heq, hmoves, hends⟩ := hp s hs
  cases hrun : p s with
  | ok a t =>
    rw [hrun] at heq hmoves hends
    obtain ⟨heq', hmoves', hends'⟩ := hf a t hends
    rw [bind_of_ok hrun, bind_of_ok heq]
    exact ⟨heq', hmoves.trans hmoves', hends'⟩
  | error e t =>
    rw [hrun] at heq hmoves hends
    rw [bind_of_error hrun, bind_of_error heq]
    exact ⟨rfl, hmoves, hends⟩

theorem ite {c : Prop} [Decidable c] {p' q' : Parser α} (h : Carries I J E p q) (h' : Carries I J E p' q') :
    Carries I J E (if c then p else p') (if c then q else q') := by
  split
  · exact h
  · exact h'

theorem repeating {f g : α → Parser (ForInStep α)} {a : α} (h : ∀ a, Carries I I E (f a) (g a)) :
    Carries I I E (repeating a f) (repeating a g) := by
  intro s hs
  show repeatFrom g a s = repeatFrom f a s ∧ Moves s (Outcome.stop (repeatFrom f a s)) ∧
    Outcome.Ends I E (repeatFrom f a s)
  fun_induction Grammar.repeatFrom f a s with
  | case1 a s b t hrun =>
    obtain ⟨heq, hends⟩ := h a s hs
    rw [hrun] at heq hends
    exact ⟨repeatFrom_of_done heq, hends⟩
  | case2 a s b t hrun hlt ih =>
    obtain ⟨heq, hmoves, hends⟩ := h a s hs
    rw [hrun] at heq hmoves hends
    obtain ⟨heq', hmoves', hends'⟩ := ih hends
    exact ⟨(repeatFrom_of_yield heq hlt).trans heq', hmoves.trans hmoves', hends'⟩
  | case3 a s b t hrun hge =>
    obtain ⟨heq, hends⟩ := h a s hs
    rw [hrun] at heq hends
    exact ⟨repeatFrom_of_idle heq hge, hends⟩
  | case4 a s e t hrun =>
    obtain ⟨heq, hends⟩ := h a s hs
    rw [hrun] at heq hends
    exact ⟨repeatFrom_of_error heq, hends⟩

theorem nested {I' J' E' : State → Prop} (h : Carries I J E p q) (hI : ∀ s, I' s → I { s with depth := s.depth + 1 })
    (hJ : ∀ t, J t → J' { t with depth := t.depth - 1 }) (hE : ∀ t, E t → E' { t with depth := t.depth - 1 }) :
    Carries I' J' E' (nested p) (nested q) := by
  intro s hs
  obtain ⟨heq, hmoves, hends⟩ := h { s with depth := s.depth + 1 } (hI s hs)
  unfold Grammar.nested
  rw [heq]
  cases hrun : p { s with depth := s.depth + 1 } with
  | ok a t =>
    rw [hrun] at hmoves hends
    exact ⟨rfl, hmoves.nested, hJ t hends⟩
  | error e t =>
    rw [hrun] at hmoves hends
    exact ⟨rfl, hmoves.nested, hE t hends⟩

/-- The conditions on where the parser stops may be met with struct literals allowed as before again. -/
theorem withStructLiterals {I' J' : State → Prop} {allowed : Bool} (h : Carries I J J p q)
    (hI : ∀ s, I' s → I { s with structLiterals := allowed })
    (hJ : ∀ s t, I' s → J t → Moves s { t with structLiterals := s.structLiterals } →
      J' { t with structLiterals := s.structLiterals }) :
    Carries I' J' J' (withStructLiterals allowed p) (withStructLiterals allowed q) := by
  intro s hs
  obtain ⟨heq, hmoves, hends⟩ := h { s with structLiterals := allowed } (hI s hs)
  unfold Grammar.withStructLiterals
  rw [heq]
  cases hrun : p { s with structLiterals := allowed } with
  | ok a t =>
    rw [hrun] at hmoves hends
    exact ⟨rfl, hmoves.withStructLiterals, hJ s t hs hends hmoves.withStructLiterals⟩
  | error e t =>
    rw [hrun] at hmoves hends
    exact ⟨rfl, hmoves.withStructLiterals, hJ s t hs hends hmoves.withStructLiterals⟩

end Carries

/-! ### Parsers that only move on -/

/-- No `async` waits for what it belongs to. -/
def State.Idle (s : State) : Prop := s.pendingAsync = none

/-- From every place the parser moves on, and no `async` waits where it stops if none waited before. -/
structure Plain (p : Parser α) : Prop where
  moves : Carries (fun _ => True) (fun _ => True) (fun _ => True) p p
  idle : Carries State.Idle State.Idle State.Idle p p

namespace Plain
variable {p : Parser α}

theorem of_moves (moves : ∀ s, Moves s (Outcome.stop (p s))) (idle : ∀ s, s.Idle → (Outcome.stop (p s)).Idle) :
    Plain p where
  moves s _ := ⟨rfl, moves s, Outcome.ends_iff_stop.mpr trivial⟩
  idle s hs := ⟨rfl, moves s, Outcome.ends_iff_stop.mpr (idle s hs)⟩

theorem carries {I : State → Prop} (h : Plain p) (hI : ∀ s t, I s → Moves s t → (s.Idle → t.Idle) → I t) :
    Carries I I I p p := by
  intro s hs
  have hmoves := (h.moves s trivial).2.1
  refine ⟨rfl, hmoves, Outcome.ends_iff_stop.mpr (hI s _ hs hmoves fun hidle => ?_)⟩
  exact Outcome.ends_iff_stop.mp (h.idle s hidle).2.2

theorem pure {a : α} : Plain (pure a) := ⟨.pure, .pure⟩

theorem bind {f : α → Parser β} (h : Plain p) (hf : ∀ a, Plain (f a)) : Plain (p >>= f) :=
  ⟨.bind h.moves fun a => (hf a).moves, .bind h.idle fun a => (hf a).idle⟩

theorem ite {c : Prop} [Decidable c] {q : Parser α} (h : Plain p) (hq : Plain q) :
    Plain (if c then p else q) :=
  ⟨.ite h.moves hq.moves, .ite h.idle hq.idle⟩

theorem repeating {f : α → Parser (ForInStep α)} {a : α} (h : ∀ a, Plain (f a)) : Plain (repeating a f) :=
  ⟨.repeating fun a => (h a).moves, .repeating fun a => (h a).idle⟩

theorem get : Plain (get : Parser State) := of_moves .refl fun _ hs => hs

theorem kind : Plain kind := of_moves .refl fun _ hs => hs

theorem peek {n : Nat} : Plain (peek n) := of_moves .refl fun _ hs => hs

theorem here : Plain here := of_moves .refl fun _ hs => hs

theorem check {k : Kind} : Plain (check k) := of_moves .refl fun _ hs => hs

theorem advance : Plain advance := of_moves .advance fun _ hs => hs

theorem unexpected {what : Expectation} : Plain (unexpected what : Parser α) := of_moves .refl fun _ hs => hs

theorem throw {e : ParseError} : Plain (throw e : Parser α) := of_moves .refl fun _ hs => hs

theorem tooDeep : Plain (tooDeep : Parser α) := of_moves .refl fun _ hs => hs

theorem eat {k : Kind} : Plain (eat k) := .bind .check fun _ => .ite (.bind .advance fun _ => .pure) .pure

theorem expect {k : Kind} : Plain (expect k) := .bind .check fun _ => .ite .advance .unexpected

theorem expectName : Plain expectName :=
  .bind .check fun _ => .ite (.bind .advance fun _ => .pure) .unexpected

theorem finish {start : Range} : Plain (finish start) := by
  refine of_moves (fun s => ?_) fun s hs => ?_
  · rw [finish_run]
    exact .refl s
  · rw [finish_run]
    exact hs

theorem node {shape : Shape Node} {range : Range} : Plain (node shape range) :=
  of_moves .identified fun _ hs => hs

theorem close {start : Range} {shape : Shape Node} : Plain (close start shape) := .bind .finish fun _ => .node

theorem report {e : ParseError} : Plain (report e) := of_moves (.report · e) fun _ hs => hs

theorem takePendingAsync : Plain takePendingAsync := of_moves (.setPendingAsync · _) fun _ _ => rfl

theorem clearPendingAsync : Plain (modify fun s => { s with pendingAsync := none } : Parser Unit) :=
  of_moves (.setPendingAsync · _) fun _ _ => rfl

end Plain

/-! ### Agreement -/

/-- Two parsers do the same at every place with `depth` constructs open, and move on from there. -/
def Agrees (depth : Nat) (p q : Parser α) : Prop :=
  ∀ s, s.depth = depth → q s = p s ∧ Moves s (Outcome.stop (p s))

theorem agrees_iff {depth : Nat} {p q : Parser α} :
    Agrees depth p q ↔ Carries (·.depth = depth) (·.depth = depth) (·.depth = depth) p q := by
  refine forall₂_congr fun s hs => and_congr_right fun _ => (and_iff_left_of_imp fun hmoves => ?_).symm
  exact Outcome.ends_iff_stop.mpr (hmoves.depth.trans hs)

theorem Plain.agrees {depth : Nat} {p : Parser α} (h : Plain p) : Agrees depth p p :=
  fun s _ => ⟨rfl, (h.moves s trivial).2.1⟩

namespace Agrees
variable {depth : Nat}

theorem moves {p q : Parser α} (h : Agrees s.depth p q) {a : α} (hp : p s = .ok a t) : Moves s t := by
  have hmoves := (h s rfl).2
  rwa [hp] at hmoves

theorem moves_error {p q : Parser α} (h : Agrees s.depth p q) {e : ParseError}
    (hp : p s = .error e t) : Moves s t := by
  have hmoves := (h s rfl).2
  rwa [hp] at hmoves

/-! ### Sequences -/

theorem pure {a : α} : Agrees depth (pure a : Parser α) (Pure.pure a) := Plain.pure.agrees

theorem bind {x y : Parser α} {f g : α → Parser β} (hx : Agrees depth x y)
    (hf : ∀ a, Agrees depth (f a) (g a)) : Agrees depth (x >>= f) (y >>= g) :=
  agrees_iff.mpr (.bind (agrees_iff.mp hx) fun a => agrees_iff.mp (hf a))

theorem ite {c : Prop} [Decidable c] {p q p' q' : Parser α} (hp : Agrees depth p p')
    (hq : Agrees depth q q') : Agrees depth (if c then p else q) (if c then p' else q') := by
  split
  · exact hp
  · exact hq

/-! ### The actions -/

theorem get : Agrees depth (get : Parser State) MonadState.get := Plain.get.agrees

theorem check {k : Kind} : Agrees depth (check k) (check k) := Plain.check.agrees

theorem report {e : ParseError} : Agrees depth (report e) (report e) := Plain.report.agrees

theorem setPendingAsync {f : State → Option Range} :
    Agrees depth (modify fun s => { s with pendingAsync := f s } : Parser Unit)
      (modify fun s => { s with pendingAsync := f s }) :=
  fun s _ => ⟨rfl, .setPendingAsync s _⟩

theorem tooDeep : Agrees depth (tooDeep : Parser α) Grammar.tooDeep := Plain.tooDeep.agrees

/-! ### Combinations -/

theorem attempt {p q : Parser α} (h : Agrees depth p q) : Agrees depth (attempt p) (attempt q) := by
  intro s hs
  obtain ⟨heq, hmoves⟩ := h s hs
  unfold Grammar.attempt
  rw [heq]
  cases hrun : p s with
  | ok a t =>
    rw [hrun] at hmoves
    exact ⟨rfl, hmoves⟩
  | error e t =>
    rw [hrun] at hmoves
    exact ⟨rfl, hmoves⟩

theorem withStructLiterals {allowed : Bool} {p q : Parser α} (h : Agrees depth p q) :
    Agrees depth (withStructLiterals allowed p) (withStructLiterals allowed q) :=
  agrees_iff.mpr ((agrees_iff.mp h).withStructLiterals (fun _ hs => hs) fun _ _ _ ht _ => ht)

theorem nested {p q : Parser α} (h : Agrees (depth + 1) p q) : Agrees depth (nested p) (nested q) :=
  have hleave (t : State) (ht : t.depth = depth + 1) : t.depth - 1 = depth := Nat.sub_eq_of_eq_add ht
  agrees_iff.mpr ((agrees_iff.mp h).nested (fun _ hs => congrArg (· + 1) hs) hleave hleave)

theorem repeating {f g : α → Parser (ForInStep α)} {a : α} (h : ∀ a, Agrees depth (f a) (g a)) :
    Agrees depth (repeating a f) (repeating a g) :=
  agrees_iff.mpr (.repeating fun a => agrees_iff.mp (h a))

theorem repeatFrom {f g : α → Parser (ForInStep α)} {a : α} (h : ∀ a, Agrees depth (f a) (g a)) :
    Agrees depth (repeatFrom f a) (repeatFrom g a) := repeating h

end Agrees

end BraceLang.Grammar
