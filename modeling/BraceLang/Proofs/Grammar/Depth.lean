import BraceLang.Proofs.Grammar.RoundTrip
import BraceLang.Proofs.Grammar.Shallow
import BraceLang.Proofs.Grammar.Termination

/-! How deep a parsed program is. The limit on nesting bounds the steps to a branch on every way down from an
    item. It does not bound the depth: suffixes are read in a loop, at one level, and each is put around all
    that was read before it. -/

namespace BraceLang

namespace Grammar

variable {inner : Rules} {ls rest : List Lexeme} {good : Node → Prop}

/-! ### Suffixes in a row -/

/-- The tree of a name with so many suffixes. -/
def suffixes : Nat → Node
  | 0 => ⟨0, .nowhere, none, .name "x"⟩
  | k + 1 => ⟨0, .nowhere, none, .postfixed .plusPlus (suffixes k)⟩

theorem suffixes_layered (k : Nat) : Layered .suffixed (suffixes k) := by
  induction k with
  | zero => exact .simple (.name (by decide))
  | succ k ih => exact .postfixed rfl ih

theorem nearest_suffixes (k : Nat) : nearest (suffixes k).lexemes = .name := by
  suffices starts : ∀ rest, nearest ((suffixes k).lexemes ++ rest) = .name by
    simpa using starts []
  induction k with
  | zero => exact fun _ => rfl
  | succ k ih =>
    intro rest
    rw [suffixes, Node.lexemes_eq]
    show nearest (((suffixes k).lexemes ++ [.bare .plusPlus]) ++ rest) = .name
    rw [List.append_assoc]
    exact ih _

/-- Whatever rules there are for deeper levels, none of them is needed. -/
theorem readsBack_suffixes (inner : Rules) (k : Nat) (hrest : nearest rest ≠ .lBrace) :
    ReadsBack inner (suffixes k) rest .suffixed := by
  induction k generalizing rest with
  | zero => exact readsBack_primary (yields_name hrest)
  | succ k ih =>
    have target : ReadsBack inner (suffixes k) (.bare .plusPlus :: ([] ++ rest)) .suffixed :=
      ih Kind.noConfusion
    exact readsBack_suffix target (fun _ hn => readsSuffix_postfixed rfl hn) rfl

theorem yields_suffixes (inner : Rules) (k : Nat) :
    Yields (expressionRule inner) (suffixes k).lexemes (Alike (suffixes k)) [] := by
  have reads : ReadsBack inner (suffixes k) [] .suffixed := readsBack_suffixes inner k (by decide)
  have operand : ReadsBack inner (suffixes k) [] (.binary Kind.loosest) :=
    readsBack_binary_of_prefixed (readsBack_prefixed_of_suffixed (suffixes_layered k) reads (by decide))
  have whole := readsBack_any (yields_assignment (yields_binary operand (by decide)) rfl) rfl
  rwa [ReadsBack, List.append_nil] at whole

/-- A tree that is read back from so many suffixes is as deep. -/
theorem Alike.descends {k : Nat} {n : Node} (h : Alike (suffixes k) n) : ∃ m, n.Descends k 0 m := by
  induction k generalizing n with
  | zero => exact ⟨n, .refl n⟩
  | succ k ih =>
    rw [Alike, Node.skeleton_eq, Node.skeleton_eq (suffixes (k + 1))] at h
    have shapes := congrArg Node.shape h
    cases hshape : n.shape with
    | postfixed op x =>
      rw [hshape] at shapes
      injection shapes with _ htarget
      obtain ⟨m, below⟩ := ih htarget
      exact ⟨m, .stem (by rw [hshape]; rfl) below⟩
    | _ =>
      rw [hshape] at shapes
      cases shapes

/-! ### One statement as a program -/

theorem Yields.attempt {α : Type} {p : Parser α} {good : α → Prop} (h : Yields p ls good rest) :
    Yields (attempt p) ls (fun outcome => ∃ a, outcome = .ok a ∧ good a) rest := by
  intro s hs
  obtain ⟨a, t, hp, ha, ht⟩ := h s hs
  refine ⟨.ok a, t, ?_, ⟨a, rfl, ha⟩, ht⟩
  rw [Grammar.attempt, hp]

/-- A text that is read as one statement up to its end is a program of that statement. -/
theorem Yields.program {source : Source} (h : Yields rules.statement ls good [])
    (spelled : (TokenStream.ofSource source).Says ls) (hls : nearest ls ≠ .eof) :
    ∃ item, (parse source).1.items = [item] ∧ good item := by
  have step : Yields (statementStep rules.statement false #[]) ls
      (fun r => ∃ items, r = .yield items ∧ ∃ item, items = #[item] ∧ good item) [] := by
    refine .check_bind (.check_bind ?_)
    rw [beq_false_of_ne hls, Bool.false_and, Bool.false_or, if_neg Bool.false_ne_true]
    refine .get_bind fun _ => h.attempt.bind ?_
    rintro _ ⟨item, rfl, hitem⟩
    exact .pure ⟨_, rfl, item, rfl, hitem⟩
  have shorter : ([] : List Lexeme).length < ls.length := by
    cases ls with
    | nil => exact absurd rfl hls
    | cons l ls => exact Nat.succ_pos _
  have all : Yields (statements rules.statement false) ls
      (fun items => ∃ item, items = [item] ∧ good item) [] := by
    have last (items : Array Node) (hitems : ∃ item, items = #[item] ∧ good item) :
        Yields (repeating items (statementStep rules.statement false)) []
          (fun items => ∃ item, items = #[item] ∧ good item) [] :=
      .repeating_done (.check_bind (.check_bind (.pure ⟨items, rfl, hitems⟩)))
    refine (Yields.repeating_yield step shorter last).bind ?_
    rintro _ ⟨item, rfl, hitem⟩
    exact .pure ⟨item, rfl, hitem⟩
  obtain ⟨items, t, hrun, hitems, -⟩ := all _ (.start spelled)
  rw [parse_eq hrun]
  exact hitems

/-- The statement of a name with so many suffixes. -/
def IsSuffixes (k : Nat) (n : Node) : Prop := ∃ e, n.shape = .exprStmt e ∧ Alike (suffixes k) e

theorem yields_suffixes_statement (k : Nat) :
    Yields rules.statement (suffixes k).lexemes (IsSuffixes k) [] := by
  have expression : Yields (Rules.within 255).expression (suffixes k).lexemes (Alike (suffixes k)) [] :=
    Yields.nested (yields_suffixes (Rules.within 254) k)
  have body : Yields (statementBody (Rules.within 255)) (suffixes k).lexemes (IsSuffixes k) [] := by
    refine .here_bind fun start => .kind_bind ?_
    rw [nearest_suffixes]
    refine expression.bind fun e he => Yields.close.mono ?_
    rintro _ ⟨id, range, rfl⟩
    exact ⟨e, rfl, he⟩
  exact Yields.nested (body.bind fun n hn => .eat_bind_of_ne (by decide) (.pure hn))

end Grammar

open Grammar

/-- On every way down from an item of a program at most so many steps lead to a branch as the limit on nesting
    allows, and every node of the program is reached on such a way. -/
theorem parse_turns_le (source : Source) :
    (∀ item ∈ (parse source).1.items, ∀ depth turns m, item.Descends depth turns m → turns ≤ 5 * nestingLimit) ∧
    ∀ p ∈ (parse source).1.outline, ∃ item ∈ (parse source).1.items, ∃ turns ≤ 5 * nestingLimit,
      item.Descends p.1 turns p.2 := by
  have bounded : ∀ item ∈ (parse source).1.items, ∀ depth turns m, item.Descends depth turns m →
      turns ≤ 5 * nestingLimit := by
    obtain ⟨items, t, hrun, -⟩ := statements_reach_end (Rules.within_read nestingLimit)
      (State.start (TokenStream.ofSource source))
    have low : Low (5 * nestingLimit) items :=
      Ensures.statements (Rules.within_nestTo nestingLimit).statement _ items t hrun
    rw [parse_eq hrun]
    intro item hitem depth turns m below
    exact Nat.le_trans (Nat.le_of_add_right_le below.turns_le) (low item hitem)
  refine ⟨bounded, fun p hp => ?_⟩
  obtain ⟨item, hitem, hp⟩ := List.mem_flatMap.mp hp
  obtain ⟨turns, below⟩ := Node.mem_outline.mp hp
  exact ⟨item, hitem, turns, bounded item hitem _ _ _ below, below⟩

/-- No bound holds for the depth of all programs. -/
theorem parse_depth_unbounded : ¬∃ bound, ∀ source, ∀ p ∈ (parse source).1.outline, p.1 ≤ bound := by
  rintro ⟨bound, h⟩
  have spelled := TokenStream.ofSource_spaced (suffixes_layered bound).proper 0 "main"
  have starts : nearest (suffixes bound).lexemes ≠ .eof := by
    rw [nearest_suffixes]
    decide
  obtain ⟨item, hitems, e, hshape, alike⟩ := (yields_suffixes_statement bound).program spelled starts
  obtain ⟨m, below⟩ := alike.descends
  have deep : item.Descends (bound + 1) 1 m := .branch (by rw [hshape]; exact List.mem_singleton_self e) below
  have hmem : (bound + 1, m) ∈ (parse (.ofText 0 "main" (spaced (suffixes bound).lexemes))).1.outline := by
    rw [Program.outline, hitems, List.flatMap_singleton]
    exact Node.mem_outline.mpr ⟨1, deep⟩
  exact Nat.not_succ_le_self bound (h _ _ hmem)

end BraceLang
