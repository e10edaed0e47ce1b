import BraceLang.Proofs.Node.Preorder

/-! How deep a node lies below another. A suffix or a binary operator is put behind what has been read before
    it, its stem; all other parts of a construct are branches. On a way down, only the steps to a branch count
    towards the nesting of a tree, which is why its depth may be anything. -/

namespace BraceLang

namespace Shape
variable {α β : Type}

/-- The expression or type that a suffix or a binary operator is put behind. -/
def stem? : Shape α → Option α
  | postfixed _ x | binary _ x _ | call x _ | macroName x | macroCall x _ | index x _ | member x _ _
  | cast x _ | arrayType x _ | optional x => some x
  | _ => none

/-- The parts other than the stem, in source order. -/
def branches : Shape α → List α
  | postfixed .. | macroName _ | optional _ => []
  | binary _ _ y | member _ y _ | cast _ y => [y]
  | call _ list | macroCall _ list | index _ list => list
  | arrayType _ size => size.toList
  | shape => shape.toList

theorem toList_eq_stem?_append (s : Shape α) : s.toList = s.stem?.toList ++ s.branches := by
  cases s <;> rfl

theorem stem?_map (f : α → β) (s : Shape α) : (s.map f).stem? = s.stem?.map f := by
  cases s <;> rfl

theorem branches_map (f : α → β) (s : Shape α) : (s.map f).branches = s.branches.map f := by
  cases s <;> simp [map, branches, toList, Option.toList_map]

end Shape

theorem foldr_max_le_iff {xs : List Nat} {b : Nat} : xs.foldr max 0 ≤ b ↔ ∀ x ∈ xs, x ≤ b := by
  induction xs with
  | nil => simp
  | cons x xs ih => rw [List.foldr_cons, Nat.max_le, ih, List.forall_mem_cons]

namespace Node

/-- The greatest number of steps to a branch on any way down. -/
def nesting (n : Node) : Nat :=
  n.fold fun _ parts =>
    max ((parts.stem?.map (·.2)).getD 0) ((parts.branches.map (·.2 + 1)).foldr max 0)

theorem nesting_eq (n : Node) : n.nesting =
    max ((n.shape.stem?.map nesting).getD 0) ((n.shape.branches.map (·.nesting + 1)).foldr max 0) := by
  rw [nesting, fold_eq, Shape.stem?_map, Shape.branches_map, Option.map_map, List.map_map]
  rfl

theorem nesting_le_iff {n : Node} {b : Nat} :
    n.nesting ≤ b ↔ (∀ c ∈ n.shape.stem?, c.nesting ≤ b) ∧ ∀ c ∈ n.shape.branches, c.nesting < b := by
  rw [nesting_eq, Nat.max_le, foldr_max_le_iff, List.forall_mem_map]
  refine and_congr_left fun _ => ?_
  cases n.shape.stem? <;> simp

/-- The second node lies below the first, so many steps down, of which so many lead to a branch. -/
inductive Descends : Node → Nat → Nat → Node → Prop where
  | refl (n : Node) : Descends n 0 0 n
  | stem {n c m : Node} {steps turns : Nat} (h : n.shape.stem? = some c) (below : Descends c steps turns m) :
    Descends n (steps + 1) turns m
  | branch {n c m : Node} {steps turns : Nat} (h : c ∈ n.shape.branches) (below : Descends c steps turns m) :
    Descends n (steps + 1) (turns + 1) m

namespace Descends
variable {n m c : Node} {steps turns : Nat}

/-- The nesting of a tree bounds the steps to a branch, and nothing else on the way. -/
theorem turns_le (h : Descends n steps turns m) : turns + m.nesting ≤ n.nesting := by
  induction h with
  | refl n => exact Nat.le_of_eq (Nat.zero_add _)
  | @stem n c m steps turns h _ ih =>
    have low := (nesting_le_iff.mp (Nat.le_refl n.nesting)).1 c h
    omega
  | @branch n c m steps turns h _ ih =>
    have low := (nesting_le_iff.mp (Nat.le_refl n.nesting)).2 c h
    omega

theorem part (hc : c ∈ n.children) (h : Descends c steps turns m) :
    ∃ turns, Descends n (steps + 1) turns m := by
  rw [children, Shape.toList_eq_stem?_append, List.mem_append, Option.mem_toList] at hc
  rcases hc with hc | hc
  · exact ⟨turns, .stem hc h⟩
  · exact ⟨turns + 1, .branch hc h⟩

/-- A way down is empty or starts with a step to a part. -/
theorem cases_part (h : Descends n steps turns m) :
    (steps = 0 ∧ m = n) ∨ ∃ c ∈ n.children, ∃ fewer turns, Descends c fewer turns m ∧ steps = fewer + 1 := by
  simp only [children, Shape.toList_eq_stem?_append, List.mem_append, Option.mem_toList]
  cases h with
  | refl => exact .inl ⟨rfl, rfl⟩
  | stem h below => exact .inr ⟨_, .inl h, _, _, below, rfl⟩
  | branch h below => exact .inr ⟨_, .inr h, _, _, below, rfl⟩

end Descends

theorem mem_foldr_outlineThen {cs : List Node} {depth : Nat} {rest : List (Nat × Node)} {p : Nat × Node}
    (h : ∀ c ∈ cs, ∀ rest, p ∈ c.outlineThen depth rest ↔
      (∃ steps turns, Descends c steps turns p.2 ∧ p.1 = depth + steps) ∨ p ∈ rest) :
    p ∈ cs.foldr (fun c rest => c.outlineThen depth rest) rest ↔
      (∃ c ∈ cs, ∃ steps turns, Descends c steps turns p.2 ∧ p.1 = depth + steps) ∨ p ∈ rest := by
  induction cs with
  | nil => simp
  | cons c cs ih =>
    obtain ⟨hc, hcs⟩ := List.forall_mem_cons.mp h
    rw [List.foldr_cons, hc, ih hcs]
    simp only [List.mem_cons, exists_eq_or_imp, or_assoc]

theorem mem_outlineThen (n : Node) : ∀ depth rest p, p ∈ n.outlineThen depth rest ↔
    (∃ steps turns, Descends n steps turns p.2 ∧ p.1 = depth + steps) ∨ p ∈ rest := by
  induction n using Node.induct with
  | step n ih =>
    intro depth rest p
    rw [outlineThen_eq, List.mem_cons, mem_foldr_outlineThen fun c hc rest => ih c hc (depth + 1) rest p,
      ← or_assoc]
    refine or_congr_left ⟨?_, ?_⟩
    · rintro (rfl | ⟨c, hc, steps, turns, below, hp⟩)
      · exact ⟨0, 0, .refl n, rfl⟩
      · obtain ⟨turns, below⟩ := below.part hc
        exact ⟨steps + 1, turns, below, by omega⟩
    · rintro ⟨steps, turns, below, hp⟩
      rcases below.cases_part with ⟨rfl, hm⟩ | ⟨c, hc, fewer, turns, rest, rfl⟩
      · exact .inl (Prod.ext hp hm)
      · exact .inr ⟨c, hc, fewer, turns, rest, by omega⟩

/-- The outline holds just the nodes below a node, each with the number of steps down to it. -/
theorem mem_outline {n m : Node} {depth : Nat} :
    (depth, m) ∈ n.outline ↔ ∃ turns, Descends n depth turns m := by
  rw [outline, mem_outlineThen]
  simp

end Node

end BraceLang
