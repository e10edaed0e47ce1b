import BraceLang.Proofs.Diagnostic.Distance

/-! The closest candidate. Candidates are taken one by one, and the best so far gives way only to a nearer
    one (`Foremost.nearer`), so of those that may be suggested the first of the nearest is left
    (`closest?_eq_some_iff`), however often each of them is there (`closest?_eraseDups`). -/

namespace BraceLang.Suggestion

/-- The number of edits between two names. -/
def edits (name candidate : String) : Nat := levenshtein name.toList candidate.toList

/-- Long enough and near enough to have been meant. -/
def Near (name candidate : String) : Prop := 2 ≤ candidate.length ∧ edits name candidate ≤ 2

/-- What may be suggested for a name: any other that may have been meant. -/
def Eligible (name candidate : String) : Prop := Near name candidate ∧ candidate ≠ name

/-- Of the candidates that may be suggested for a name, `closest` is the first with the least number of
    edits. -/
def FirstNearest (name : String) (candidates : List String) (closest : String) : Prop :=
  ∃ before after, candidates = before ++ closest :: after ∧ Eligible name closest ∧
    (∀ c ∈ before, Eligible name c → edits name closest < edits name c) ∧
    ∀ c ∈ after, Eligible name c → edits name closest ≤ edits name c

variable {name c closest : String} {cs : List String} {best : Option (String × Nat)}

theorem distance?_eq_some_iff {d : Nat} : distance? name c = some d ↔ Eligible name c ∧ d = edits name c := by
  unfold distance?
  rw [boundedDistance_eq_levenshtein]
  split
  · rename_i skipped
    have out : ¬Eligible name c := by
      rintro ⟨⟨long, -⟩, other⟩
      rcases Bool.or_eq_true_iff.mp skipped with short | same
      · exact Nat.not_lt.mpr long (of_decide_eq_true short)
      · exact other (beq_iff_eq.mp same)
    simp [out]
  · rename_i kept
    obtain ⟨long, other⟩ := Bool.or_eq_false_iff.mp (eq_false_of_ne_true kept)
    have long : 2 ≤ c.length := Nat.not_lt.mp (of_decide_eq_false long)
    have eligible : Eligible name c ↔ edits name c ≤ 2 :=
      ⟨fun h => h.1.2, fun h => ⟨⟨long, h⟩, beq_eq_false_iff_ne.mp other⟩⟩
    rw [eligible]
    show (if edits name c ≤ 2 then some (edits name c) else none) = some d ↔ _
    split
    · rename_i near
      rw [Option.some_inj, eq_comm, and_iff_right near]
    · rename_i far
      simp [far]

theorem distance?_eq_none_iff : distance? name c = none ↔ ¬Eligible name c := by
  rw [Option.eq_none_iff_forall_ne_some]
  constructor
  · exact fun h eligible => h _ (distance?_eq_some_iff.mpr ⟨eligible, rfl⟩)
  · exact fun h d hd => h (distance?_eq_some_iff.mp hd).1

/-! ### The best so far -/

/-- What is kept while the candidates `seen` are taken: nothing, or the first of the nearest with its
    distance. -/
def Foremost (name : String) (seen : List String) : Option (String × Nat) → Prop
  | none => ∀ c ∈ seen, ¬Eligible name c
  | some (closest, least) => FirstNearest name seen closest ∧ least = edits name closest

namespace Foremost

theorem nil (name : String) : Foremost name [] none := List.forall_mem_nil _

theorem nearer (h : Foremost name cs best) (c : String) :
    Foremost name (cs ++ [c]) (Suggestion.nearer name best c) := by
  unfold Suggestion.nearer
  cases hc : distance? name c with
  | none =>
    -- what may not be suggested changes nothing
    have out : ¬Eligible name c := distance?_eq_none_iff.mp hc
    cases best with
    | none => exact List.forall_mem_append.mpr ⟨h, List.forall_mem_singleton.mpr out⟩
    | some best =>
      obtain ⟨⟨before, after, rfl, eligible, hbefore, hafter⟩, hleast⟩ := h
      refine ⟨⟨before, after ++ [c], by simp, eligible, hbefore, ?_⟩, hleast⟩
      exact List.forall_mem_append.mpr ⟨hafter, List.forall_mem_singleton.mpr fun h => absurd h out⟩
  | some d =>
    obtain ⟨eligible, rfl⟩ := distance?_eq_some_iff.mp hc
    cases best with
    | none =>
      exact ⟨⟨cs, [], rfl, eligible, fun x hx hx' => absurd hx' (h x hx), List.forall_mem_nil _⟩, rfl⟩
    | some best =>
      obtain ⟨⟨before, after, rfl, heligible, hbefore, hafter⟩, hleast⟩ := h
      dsimp only
      rw [hleast]
      split
      · rename_i nearer
        refine ⟨⟨_, [], rfl, eligible, ?_, List.forall_mem_nil _⟩, rfl⟩
        refine List.forall_mem_append.mpr ⟨fun x hx hx' => Nat.lt_trans nearer (hbefore x hx hx'), ?_⟩
        exact List.forall_mem_cons.mpr
          ⟨fun _ => nearer, fun x hx hx' => Nat.lt_of_lt_of_le nearer (hafter x hx hx')⟩
      · rename_i further
        refine ⟨⟨before, after ++ [c], by simp, heligible, hbefore, ?_⟩, hleast⟩
        exact List.forall_mem_append.mpr
          ⟨hafter, List.forall_mem_singleton.mpr fun _ => Nat.not_lt.mp further⟩

theorem foldl (name : String) (cs : List String) : Foremost name cs (cs.foldl (Suggestion.nearer name) none) := by
  induction cs using List.reverseRecOn with
  | nil => exact .nil name
  | append_singleton cs c ih =>
    rw [List.foldl_append]
    exact ih.nearer c

end Foremost

/-! ### The closest candidate -/

theorem FirstNearest.unique {a b : String} (ha : FirstNearest name cs a) (hb : FirstNearest name cs b) : a = b := by
  obtain ⟨before, after, rfl, heligible, hbefore, hafter⟩ := ha
  obtain ⟨before', after', hcs, heligible', hbefore', hafter'⟩ := hb
  rcases List.append_eq_append_iff.mp hcs with ⟨mid, rfl, hmid⟩ | ⟨mid, rfl, hmid⟩ <;>
    rcases List.cons_eq_append_iff.mp hmid with ⟨rfl, hlast⟩ | ⟨rest, rfl, rfl⟩
  · exact (List.cons.inj hlast).1.symm
  · -- the second comes after the first, so it would have to be nearer
    have earlier := hbefore' a (by simp) heligible
    have later := hafter b (by simp) heligible'
    exact absurd earlier (Nat.not_lt.mpr later)
  · exact (List.cons.inj hlast).1
  · have earlier := hbefore b (by simp) heligible'
    have later := hafter' a (by simp) heligible
    exact absurd earlier (Nat.not_lt.mpr later)

theorem closest?_eq_none_iff (name : String) (cs : List String) :
    closest? name cs = none ↔ ∀ c ∈ cs, ¬Eligible name c := by
  have foremost := Foremost.foldl name cs
  unfold closest?
  generalize cs.foldl (nearer name) none = best at foremost
  cases best with
  | none => exact ⟨fun _ => foremost, fun _ => rfl⟩
  | some best =>
    obtain ⟨⟨before, after, rfl, eligible, -⟩, -⟩ := foremost
    exact ⟨fun h => (by cases h), fun h => absurd eligible (h _ (by simp))⟩

theorem closest?_eq_some_iff (name : String) (cs : List String) (closest : String) :
    closest? name cs = some closest ↔ FirstNearest name cs closest := by
  have foremost := Foremost.foldl name cs
  unfold closest?
  generalize cs.foldl (nearer name) none = best at foremost
  cases best with
  | none =>
    refine ⟨fun h => (by cases h), ?_⟩
    rintro ⟨before, after, rfl, eligible, -⟩
    exact absurd eligible (foremost _ (by simp))
  | some best =>
    refine ⟨fun h => Option.some.inj h ▸ foremost.1, fun h => ?_⟩
    exact congrArg some (foremost.1.unique h)

/-! ### Candidates that are there more than once -/

/-- The candidate is no nearer than the best so far. -/
def Beaten (name candidate : String) (best : Option (String × Nat)) : Prop :=
  ∀ d, distance? name candidate = some d → ∃ b, best = some b ∧ b.2 ≤ d

theorem Beaten.nearer_eq (h : Beaten name c best) : nearer name best c = best := by
  unfold nearer
  cases hc : distance? name c with
  | none => rfl
  | some d =>
    obtain ⟨b, rfl, le⟩ := h d hc
    exact if_neg (Nat.not_lt.mpr le)

theorem beaten_nearer (name c : String) (best : Option (String × Nat)) : Beaten name c (nearer name best c) := by
  intro d hd
  unfold nearer
  rw [hd]
  cases best with
  | none => exact ⟨_, rfl, Nat.le_refl d⟩
  | some b =>
    dsimp only
    split
    · exact ⟨_, rfl, Nat.le_refl d⟩
    · rename_i further
      exact ⟨b, rfl, Nat.not_lt.mp further⟩

theorem Beaten.nearer (h : Beaten name c best) (x : String) : Beaten name c (nearer name best x) := by
  intro d hd
  obtain ⟨b, rfl, le⟩ := h d hd
  unfold Suggestion.nearer
  split
  · exact ⟨b, rfl, le⟩
  · rename_i hbest
    cases hbest
  · rename_i hbest
    cases hbest
    split
    · rename_i closer
      exact ⟨_, rfl, Nat.le_trans (Nat.le_of_lt closer) le⟩
    · exact ⟨_, rfl, le⟩

theorem beaten_foldl (h : c ∈ cs) (best : Option (String × Nat)) :
    Beaten name c (cs.foldl (nearer name) best) := by
  induction cs using List.reverseRecOn with
  | nil => cases h
  | append_singleton cs x ih =>
    rw [List.foldl_append, List.foldl_cons, List.foldl_nil]
    rcases List.mem_append.mp h with h | h
    · exact (ih h).nearer x
    · obtain rfl := List.mem_singleton.mp h
      exact beaten_nearer name c _

/-- A candidate that was taken before makes no difference. -/
theorem foldl_eraseDups (name : String) (cs : List String) (best : Option (String × Nat)) :
    cs.eraseDups.foldl (nearer name) best = cs.foldl (nearer name) best := by
  induction cs using List.reverseRecOn with
  | nil => rfl
  | append_singleton cs c ih =>
    rw [List.eraseDups_append, List.foldl_append, List.foldl_append, ih]
    by_cases h : c ∈ cs
    · simpa [List.removeAll, h] using (beaten_foldl h best).nearer_eq.symm
    · simp [List.removeAll, h, List.eraseDups_cons]

theorem closest?_eraseDups (name : String) (groups : List (List String)) :
    closest? name (groups.flatMap List.eraseDups) = closest? name groups.flatten := by
  have same (best : Option (String × Nat)) :
      (groups.flatMap List.eraseDups).foldl (nearer name) best = groups.flatten.foldl (nearer name) best := by
    induction groups generalizing best with
    | nil => rfl
    | cons cs groups ih =>
      rw [List.flatMap_cons, List.flatten_cons, List.foldl_append, List.foldl_append, foldl_eraseDups, ih]
  rw [closest?, closest?, same]

end BraceLang.Suggestion
