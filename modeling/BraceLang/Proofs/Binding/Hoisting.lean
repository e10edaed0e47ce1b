import BraceLang.Proofs.Binding.Concord.Constructs
import BraceLang.Proofs.Binding.Told

/-! Functions and types at the top of a program. What is declared in one of them stays in it, so binding it
    leaves the scope around it as it was when all their names had been declared (`Between.whole`); and in
    which order those were declared makes no difference to what a name stands for (`Between.alike`). -/

namespace BraceLang

/-! ### What expressions and types declare -/

/-- Whether nothing is declared around what stands in the slot. -/
def Slot.isQuiet : Slot → Bool
  | value | type | selector | name | fieldInit => true
  | _ => false

theorem Slot.shape_of_isQuiet {α : Type} {slot : Slot} {shape : Shape α} (quiet : slot.isQuiet = true)
    (h : slot.holds shape = true) : shape.isValue ∨ shape.isType ∨ shape.isFieldInit := by
  cases slot
  case value => exact .inl h
  case type => exact .inr (.inl h)
  case fieldInit => exact .inr (.inr h)
  case selector | name => 
    cases shape <;> first | exact .inl rfl | cases h
  all_goals cases quiet

namespace Lexical
variable {n : Node}

/-- An expression or a type either keeps what is declared in it in a scope of its own, or has only expressions
    and types for parts. -/
theorem introduces_quiet {shape : Shape Node} (h : shape.isValue ∨ shape.isType ∨ shape.isFieldInit)
    (f : Node → Node × List Introduction) : introduces n (shape.map f) = [] ∨
      introduces n (shape.map f) = shape.toList.flatMap (fun c => (f c).2) ∧
        ∀ p ∈ shape.slots, p.1.isQuiet = true := by
  cases shape
  case closure | block => exact .inl rfl
  all_goals first
    | (rcases h with h | h | h <;> cases h; done)
    | refine .inr ⟨by simp [introduces, Shape.map, Shape.toList, List.flatMap_map, Option.toList_map], ?_⟩
      simp only [Shape.slots, List.mem_append, List.mem_cons, List.not_mem_nil, mem_each]
      grind [Slot.isQuiet]

theorem introduced_eq_nil (formed : n.Throughout fun n => n.shape.WellFormed) {slot : Slot}
    (quiet : slot.isQuiet = true) (holds : slot.holds n.shape = true) : introduced n = [] := by
  induction formed generalizing slot with
  | @mk n formed _ ih =>
    rw [introduced_eq]
    rcases introduces_quiet (Slot.shape_of_isQuiet quiet holds) fun c => (c, introduced c) with none | ⟨all, slots⟩
    · exact none
    · rw [all, List.flatMap_eq_nil_iff]
      intro c hc
      have hslots := hc
      rw [← Shape.map_snd_slots] at hslots
      obtain ⟨p, hp, rfl⟩ := List.mem_map.mp hslots
      exact ih p.2 hc (slots p hp) (formed.parts p hp)

/-- A function or a type declares nothing around it but its name, and that ahead of its place. -/
theorem introduced_of_ahead? (formed : n.Throughout fun n => n.shape.WellFormed) (h : (ahead? n).isSome) :
    introduced n = [] := by
  obtain ⟨⟨-, seated⟩, parts⟩ := formed
  have quiet (slot : Slot) {c : Node} (hslot : slot.isQuiet = true) (hc : (slot, c) ∈ n.shape.slots) :
      introduced c = [] := by
    refine introduced_eq_nil (parts c ?_) hslot (seated _ hc)
    rw [Node.children, ← Shape.map_snd_slots]
    exact List.mem_map_of_mem hc
  rw [introduced_eq]
  unfold ahead? at h
  generalize n.shape = shape at h quiet
  cases shape <;> simp only [Option.isSome_none, Bool.false_eq_true] at h
  case func | struct | typeAlias | union =>
    simp only [introduces, Shape.map, List.flatMap_map, List.flatMap_eq_nil_iff]
    intro c hc
    exact quiet .value rfl (by simp [Shape.slots, mem_each, hc])
  case enum =>
    simp only [introduces, Shape.map, List.flatMap_append, List.flatMap_map, Option.toList_map,
      List.append_eq_nil_iff, List.flatMap_eq_nil_iff]
    refine ⟨fun c hc => quiet .value rfl ?_, fun c hc => quiet .type rfl ?_⟩
    all_goals simp [Shape.slots, mem_each, hc]

end Lexical

/-! ### Looking up by a key -/

/-- Among elements with different keys, what is found under a key does not depend on their order. -/
theorem find?_perm {α κ : Type} [DecidableEq κ] {xs ys : List α} (key : α → κ) (h : xs.Perm ys)
    (distinct : (xs.map key).Nodup) (k : κ) : xs.find? (key · == k) = ys.find? (key · == k) := by
  induction h with
  | nil => rfl
  | cons x _ ih =>
    rw [List.find?_cons, List.find?_cons, ih (List.nodup_cons.mp distinct).2]
  | swap x y xs =>
    have hne : key y ≠ key x := by
      rintro hsame
      simp [hsame] at distinct
    simp only [List.find?_cons]
    split <;> split <;> simp_all
  | trans hxy _ ih ih' => exact (ih distinct).trans (ih' ((hxy.map key).nodup_iff.mp distinct))

/-- What is told by a binding error in code and place comes from its cause and its range alone. -/
theorem BindCause.code_primaryRange? (cause : BindCause) (range : Range) :
    ((cause.diagnostic range).code, (cause.diagnostic range).primaryRange?) =
      (some cause.code.text, some range) :=
  congrArg (fun found : Finding => (found.code, found.place)) (BindError.finding_toDiagnostic cause range)

namespace Binder
open Lexical

/-- States are like each other if every name stands for the same node, whatever is told about where names were
    declared and about other names. -/
def Likeness.byName : Likeness (Option String × Option Range) where
  Frames a b := ∀ name, (a.get? name).map (·.decl) = (b.get? name).map (·.decl)
  view d := (d.code, d.primaryRange?)
  empty _ := rfl
  insert x h ha hb name := by
    rw [Scope.get?_insert ha, Scope.get?_insert hb, Option.map_or, Option.map_or, h name]
  decl name h := h name
  redefinition range _ _ _ := by rw [BindCause.code_primaryRange?, BindCause.code_primaryRange?]; rfl
  undefined _ range _ := by rw [BindCause.code_primaryRange?, BindCause.code_primaryRange?]; rfl

/-! ### Declaring names ahead -/

section
variable {γ : Type} {view : Diagnostic → γ} {contexts : List Context} {outer : List Scope} {s t : State}
variable {before scope : List Introduction} {ns : List Node} {n : Node}

theorem spends_declare {name : Ident} (h : At contexts before outer s) (new : firstOf? before name.text = none)
    (decl : NodeId) : Spends view s .nothing (declare name decl s).2 := by
  obtain ⟨frame, hopen, hframe⟩ := h.scopes
  have hname : frame.get? name.text = none := by rw [hframe, new, Option.map_none]
  obtain ⟨t, ht, -⟩ := ScopeStack.define_new hopen hname ⟨decl, some name.range⟩
  rw [declare, get_bind, ht]
  exact .flat ⟨[], rfl, rfl⟩ rfl rfl (ScopeStack.define_history ht) (ScopeStack.define_counts ht).2

theorem hoist_eq (n : Node) : hoist n = match ahead? n with
    | some d => declare d.name d.decl
    | none => pure () := by
  unfold hoist hoistedName? ahead?
  cases n.shape <;> rfl

/-- Declaring names ahead reports nothing if they are distinct. -/
theorem spends_hoistAll (h : At contexts before outer s)
    (distinct : ((before ++ ns.filterMap ahead?).map (·.text)).Nodup) :
    Spends view s .nothing ((ns.map part).forM (fun part => hoist part.1) s).2 := by
  induction ns generalizing before s with
  | nil => exact .nothing s
  | cons n ns ih =>
    show Spends view s .nothing ((ns.map part).forM (fun part => hoist part.1) (hoist n s).2).2
    obtain ⟨_, _, _, hafter, -⟩ := Tells.hoist n s outer h
    cases hn : ahead? n with
    | none =>
      rw [List.filterMap_cons_none hn] at distinct
      rw [hn, Option.toList_none, List.append_nil] at hafter
      have hskip : Spends view s .nothing (hoist n s).2 := by
        rw [hoist_eq, hn]
        exact .nothing s
      exact hskip.trans (ih hafter distinct)
    | some d =>
      rw [List.filterMap_cons_some hn, List.append_cons] at distinct
      rw [hn, Option.toList_some] at hafter
      have new : firstOf? before d.text = none := by
        rw [firstOf?_eq_none_iff]
        intro hmem
        rw [List.map_append, List.map_append, List.map_singleton] at distinct
        exact (List.disjoint_of_nodup_append (List.nodup_append.mp distinct).1) hmem (List.mem_singleton_self _)
      have hdeclare : Spends view s .nothing (hoist n s).2 := by
        rw [hoist_eq, hn]
        exact spends_declare h new d.decl
      exact hdeclare.trans (ih hafter distinct)

/-! ### Between the items of a program -/

/-- The binder is at the top of a program in whose scope this is declared, in one order or another. -/
def Between (scope : List Introduction) (s : State) : Prop := ∃ order, order.Perm scope ∧ At [] order [] s

theorem Between.alike (distinct : (scope.map (·.text)).Nodup) (hs : Between scope s) (ht : Between scope t) :
    Likeness.byName.Alike s t := by
  obtain ⟨order, horder, hs⟩ := hs
  obtain ⟨order', horder', ht⟩ := ht
  obtain ⟨frame, hopen, hframe⟩ := hs.scopes
  obtain ⟨frame', hopen', hframe'⟩ := ht.scopes
  refine ⟨?_, hs.contexts.trans ht.contexts.symm⟩
  rw [hopen, hopen']
  refine .cons (fun name => ?_) .nil
  have same : firstOf? order name = firstOf? order' name :=
    find?_perm Introduction.text (horder.trans horder'.symm) ((horder.map _).nodup_iff.mpr distinct) name
  rw [hframe, hframe', same]

/-- Declaring the items ahead is enough for the scope of a program. -/
theorem Between.hoistAll (ns : List Node) (h : At [] [] [] s) :
    Between (ns.filterMap ahead?) ((ns.map part).forM (fun part => hoist part.1) s).2 := by
  obtain ⟨_, _, _, hafter, -⟩ := Tells.hoistAll ns s [] h
  exact ⟨_, .refl _, hafter⟩

/-- A function or type leaves the scope it stands in as it was. -/
theorem Between.whole (h : Between scope s) (proper : n.ProperMembers)
    (unlinked : n.Throughout fun n => n.resolved = none) (formed : n.Throughout fun n => n.shape.WellFormed)
    (ahead : (ahead? n).isSome) : Between scope (visit (part n) s).2 := by
  obtain ⟨order, horder, hat⟩ := h
  obtain ⟨_, _, _, hafter, -⟩ := (settles n proper unlinked).1 [] order s [] hat
  rw [introduced_of_ahead? formed ahead, List.append_nil] at hafter
  exact ⟨order, horder, hafter⟩

end

end Binder

end BraceLang
