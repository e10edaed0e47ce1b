import BraceLang.Grammar.Program

/-! How the actions of a parser run: each is an equation that says what the action gives at a place and
    where it stops. Looking at tokens leaves the place as it is, so such an action in front of another
    is replaced by what it sees. -/

namespace BraceLang.Grammar

variable {α β : Type} {s t u : State}

/-- What a parser comes to. -/
abbrev Outcome (α : Type) := EStateM.Result ParseError State α

/-- The place where a parser stops, failed or not. -/
def Outcome.stop : Outcome α → State
  | .ok _ t => t
  | .error _ t => t

/-! ### Sequences -/

theorem pure_run (a : α) (s : State) : (pure a : Parser α) s = .ok a s := rfl

theorem bind_of_ok {x : Parser α} {f : α → Parser β} {a : α} (h : x s = .ok a t) :
    (x >>= f) s = f a t := by
  show EStateM.bind x f s = f a t
  rw [EStateM.bind, h]

theorem bind_of_error {x : Parser α} {f : α → Parser β} {e : ParseError} (h : x s = .error e t) :
    (x >>= f) s = .error e t := by
  show EStateM.bind x f s = .error e t
  rw [EStateM.bind, h]

theorem bind_congr_run {x y : Parser α} {f : α → Parser β} (h : x s = y s) : (x >>= f) s = (y >>= f) s := by
  show EStateM.bind x f s = EStateM.bind y f s
  rw [EStateM.bind, EStateM.bind, h]

theorem bind_eq_ok {x : Parser α} {f : α → Parser β} {b : β} :
    (x >>= f) s = .ok b u ↔ ∃ a t, x s = .ok a t ∧ f a t = .ok b u := by
  constructor
  · intro h
    cases hx : x s with
    | ok a t =>
      rw [bind_of_ok hx] at h
      exact ⟨a, t, rfl, h⟩
    | error e t =>
      rw [bind_of_error hx] at h
      cases h
  · rintro ⟨a, t, hx, h⟩
    rw [bind_of_ok hx, h]

@[simp] theorem pure_eq_ok {a b : α} : (pure a : Parser α) s = .ok b t ↔ a = b ∧ s = t := by
  simp [pure_run]

/-! ### Looking at tokens -/

@[simp] theorem kind_bind (f : Kind → Parser α) : (kind >>= f) s = f s.kind s := rfl

@[simp] theorem here_bind (f : Range → Parser α) : (here >>= f) s = f s.current.range s := rfl

@[simp] theorem peek_bind (n : Nat) (f : Kind → Parser α) : (peek n >>= f) s = f (s.peek n) s := rfl

@[simp] theorem check_bind (k : Kind) (f : Bool → Parser α) :
    (check k >>= f) s = f (s.kind == k) s := rfl

@[simp] theorem get_bind (f : State → Parser α) : ((get : Parser State) >>= f) s = f s s := rfl

@[simp] theorem modify_bind (f : State → State) (g : PUnit → Parser α) :
    ((modify f : Parser PUnit) >>= g) s = g ⟨⟩ (f s) := rfl

/-! ### Taking tokens -/

theorem advance_run (s : State) : advance s = .ok s.current s.advance := rfl

@[simp] theorem advance_bind (f : Token → Parser α) :
    (advance >>= f) s = f s.current s.advance := rfl

theorem eat_run (k : Kind) (s : State) :
    eat k s = if s.kind = k then .ok true s.advance else .ok false s := by
  by_cases h : s.kind = k
  · simp only [eat, check_bind, advance_bind, h, beq_self_eq_true, if_true, pure_run]
  · simp only [eat, check_bind, beq_eq_false_iff_ne.mpr h, Bool.false_eq_true, if_false, h, pure_run]

@[simp] theorem eat_bind (k : Kind) (f : Bool → Parser α) :
    (eat k >>= f) s = if s.kind = k then f true s.advance else f false s := by
  by_cases h : s.kind = k
  · rw [if_pos h, bind_of_ok (by rw [eat_run, if_pos h])]
  · rw [if_neg h, bind_of_ok (by rw [eat_run, if_neg h])]

@[simp] theorem unexpected_eq_ok {what : Expectation} {a : α} : unexpected what s = .ok a t ↔ False := by
  constructor
  · intro h
    cases h
  · exact False.elim

@[simp] theorem expect_eq_ok {k : Kind} {token : Token} :
    expect k s = .ok token t ↔ s.kind = k ∧ s.current = token ∧ s.advance = t := by
  by_cases h : s.kind = k
  · simp [expect, h, advance_run]
  · simp [expect, h]

@[simp] theorem expectName_eq_ok {name : Ident} :
    expectName s = .ok name t ↔
      s.kind = .name ∧ ⟨s.current.text, s.current.range⟩ = name ∧ s.advance = t := by
  by_cases h : s.kind = .name
  · simp only [expectName, check_bind, advance_bind, h, beq_self_eq_true, if_true, pure_eq_ok, true_and]
  · simp [expectName, h]

theorem expect_bind (k : Kind) (f : Token → Parser α) :
    (expect k >>= f) s = if s.kind = k then f s.current s.advance
      else .error ⟨.expected (.token k) s.kind, s.current.range⟩ s := by
  by_cases h : s.kind = k
  · rw [if_pos h, bind_of_ok (expect_eq_ok.mpr ⟨h, rfl, rfl⟩)]
  · have hrun : expect k s = .error ⟨.expected (.token k) s.kind, s.current.range⟩ s := by
      simp only [expect, check_bind, beq_eq_false_iff_ne.mpr h, Bool.false_eq_true, if_false]
      rfl
    rw [if_neg h, bind_of_error hrun]

theorem expectName_bind (f : Ident → Parser α) :
    (expectName >>= f) s = if s.kind = .name then f ⟨s.current.text, s.current.range⟩ s.advance
      else .error ⟨.expected .name s.kind, s.current.range⟩ s := by
  by_cases h : s.kind = .name
  · rw [if_pos h, bind_of_ok (expectName_eq_ok.mpr ⟨h, rfl, rfl⟩)]
  · have hrun : expectName s = .error ⟨.expected .name s.kind, s.current.range⟩ s := by
      simp only [expectName, check_bind, beq_eq_false_iff_ne.mpr h, Bool.false_eq_true, if_false]
      rfl
    rw [if_neg h, bind_of_error hrun]

/-! ### Branches -/

theorem ite_eq_ok {c : Prop} [Decidable c] {p q : Parser α} {a : α} :
    (if c then p else q) s = .ok a t ↔ c ∧ p s = .ok a t ∨ ¬c ∧ q s = .ok a t := by
  by_cases h : c <;> simp [h]

theorem check_ite_eq_ok {k : Kind} {p q : Parser α} {a : α} :
    (check k >>= fun b => if b = true then p else q) s = .ok a t ↔
      s.kind = k ∧ p s = .ok a t ∨ s.kind ≠ k ∧ q s = .ok a t := by
  by_cases h : s.kind = k <;> simp [h]

theorem eat_ite_eq_ok {k : Kind} {p q : Parser α} {a : α} :
    (eat k >>= fun b => if b = true then p else q) s = .ok a t ↔
      s.kind = k ∧ p s.advance = .ok a t ∨ s.kind ≠ k ∧ q s = .ok a t := by
  by_cases h : s.kind = k <;> simp [h]

theorem atArraySuffix_eq_ok {b : Bool} (h : atArraySuffix s = .ok b t) : s = t := by
  rw [atArraySuffix, peek_bind] at h
  generalize s.peek 1 = k at h
  split at h
  all_goals
    simp only [peek_bind, pure_eq_ok] at h
    exact h.2

theorem atStructLiteral_eq_ok {b : Bool} (h : atStructLiteral s = .ok b t) : s = t := by
  rw [atStructLiteral, peek_bind] at h
  generalize s.peek 1 = k at h
  split at h
  all_goals
    simp only [peek_bind, pure_eq_ok] at h
    exact h.2

theorem atFunctionDecl_eq_ok {b : Bool} (h : atFunctionDecl s = .ok b t) : s = t := by
  rw [atFunctionDecl, peek_bind] at h
  generalize s.peek 1 = k at h
  split at h
  all_goals
    simp only [peek_bind, pure_eq_ok] at h
    exact h.2

/-! ### Building nodes -/

/-- From `start` through the token taken last. -/
def State.rangeFrom (s : State) (start : Range) : Range :=
  match s.lastRange with
  | some last =>
    if start.source = last.source ∧ start.start.pos ≤ last.start.pos then start.merge last else start
  | none => start

/-- The place after giving out the next identity. -/
def State.identified (s : State) : State := { s with nextId := s.nextId + 1 }

theorem node_run (shape : Shape Node) (range : Range) (s : State) :
    node shape range s = .ok ⟨s.nextId, range, none, shape⟩ s.identified := rfl

theorem finish_run (start : Range) (s : State) : finish start s = .ok (s.rangeFrom start) s := by
  unfold finish State.rangeFrom
  rw [get_bind]
  cases s.lastRange <;> rfl

theorem close_run (start : Range) (shape : Shape Node) (s : State) :
    close start shape s = .ok ⟨s.nextId, s.rangeFrom start, none, shape⟩ s.identified := by
  rw [close, bind_of_ok (finish_run start s)]
  exact node_run shape _ s

@[simp] theorem node_eq_ok {shape : Shape Node} {range : Range} {n : Node} :
    node shape range s = .ok n t ↔ ⟨s.nextId, range, none, shape⟩ = n ∧ s.identified = t := by
  simp [node_run]

@[simp] theorem close_eq_ok {start : Range} {shape : Shape Node} {n : Node} :
    close start shape s = .ok n t ↔
      ⟨s.nextId, s.rangeFrom start, none, shape⟩ = n ∧ s.identified = t := by
  simp [close_run]

@[simp] theorem finish_bind (start : Range) (f : Range → Parser α) :
    (finish start >>= f) s = f (s.rangeFrom start) s := bind_of_ok (finish_run start s)

@[simp] theorem report_bind (e : ParseError) (f : Unit → Parser α) :
    (report e >>= f) s = f () { s with log := s.log.push e.toDiagnostic } := rfl

/-! ### Levels -/

@[simp] theorem tooDeep_eq_ok {a : α} : tooDeep s = .ok a t ↔ False := by
  constructor
  · intro h
    cases h
  · exact False.elim

theorem withStructLiterals_eq_ok {allowed : Bool} {body : Parser α} {a : α} :
    withStructLiterals allowed body s = .ok a t ↔
      ∃ t', body { s with structLiterals := allowed } = .ok a t' ∧
        { t' with structLiterals := s.structLiterals } = t := by
  unfold withStructLiterals
  cases body { s with structLiterals := allowed } with
  | ok b t' => simp [and_assoc]
  | error e t' => simp

theorem nested_eq_ok {body : Parser α} {a : α} :
    nested body s = .ok a t ↔
      ∃ t', body { s with depth := s.depth + 1 } = .ok a t' ∧
        { t' with depth := t'.depth - 1 } = t := by
  unfold nested
  cases body { s with depth := s.depth + 1 } with
  | ok b t' => simp [and_assoc]
  | error e t' => simp

/-! ### Loops -/

section Loops
variable {step : α → Parser (ForInStep α)} {a b : α}

theorem repeatFrom_of_done (h : step a s = .ok (.done b) t) : repeatFrom step a s = .ok b t := by
  rw [repeatFrom, h]

theorem repeatFrom_of_yield (h : step a s = .ok (.yield b) t) (hlt : t.remaining < s.remaining) :
    repeatFrom step a s = repeatFrom step b t := by
  rw [repeatFrom, h]
  exact if_pos hlt

/-- A loop whose step takes no token ends. -/
theorem repeatFrom_of_idle (h : step a s = .ok (.yield b) t) (hge : ¬t.remaining < s.remaining) :
    repeatFrom step a s = .ok b t := by
  rw [repeatFrom, h]
  exact if_neg hge

theorem repeatFrom_of_error {e : ParseError} (h : step a s = .error e t) : repeatFrom step a s = .error e t := by
  rw [repeatFrom, h]

/-- What every step of a loop keeps holds where the loop ends. -/
theorem repeating_invariant {I : α → State → Prop}
    (h : ∀ a s r t, I a s → step a s = .ok r t → I r.value t) (ha : I a s)
    (hok : repeating a step s = .ok b t) : I b t := by
  replace hok : repeatFrom step a s = .ok b t := hok
  fun_induction repeatFrom step a s with
  | case1 a s c u hrun | case3 a s c u hrun =>
    cases hok
    exact h a s _ _ ha hrun
  | case2 a s c u hrun _ ih => exact ih (h a s _ u ha hrun) hok
  | case4 a s e u hrun => cases hok

end Loops

/-- Without a comma after the first element there are no more. -/
theorem moreElements_of_ne_comma {r : Rules} {first : Node} (h : s.kind ≠ .comma) :
    moreElements r first s = .ok [first] s := by
  have hstep : elementStep r #[first] s = .ok (.done #[first]) s := by
    simp only [elementStep, eat_bind, if_neg h, check_bind, Bool.false_and, Bool.false_eq_true, if_false, pure_run]
  have hloop : repeating #[first] (elementStep r) s = .ok #[first] s := repeatFrom_of_done hstep
  rw [moreElements, bind_of_ok hloop]
  rfl

end BraceLang.Grammar
