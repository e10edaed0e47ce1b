import BraceLang.Proofs.Binding.Told
import BraceLang.Proofs.Grammar.Formation

/-! Where the jumps of a bound program lead. Each `return` is linked to the nearest body around it, each
    `break` and `continue` to the nearest loop that no body separates it from; and a jump that has nothing
    to leave is reported once, at its own range, since no two jumps start at the same place. -/

namespace BraceLang

/-! ### Links play no part in the order of nodes -/

theorem Node.range_unlinked (n : Node) : n.unlinked.range = n.range := by rw [unlinked_eq]

theorem Node.preorder_unlinked (n : Node) : n.unlinked.preorder = n.preorder.map unlinked := by
  induction n using Node.induct with
  | step n ih =>
    have hchildren : n.unlinked.children = n.children.map unlinked := by
      rw [children, shape_unlinked, Shape.toList_map]
      rfl
    rw [preorder_eq, preorder_eq n, hchildren, List.map_cons, List.flatMap_map, List.map_flatMap]
    exact congrArg _ (List.flatMap_congr ih)

theorem Node.flatMap_preorder_unlinked (ns : List Node) :
    (ns.map unlinked).flatMap preorder = (ns.flatMap preorder).map unlinked := by
  rw [List.flatMap_map, List.map_flatMap]
  exact List.flatMap_congr fun n _ => n.preorder_unlinked

namespace Grammar

theorem jumpStarts_unlinked (ns : List Node) : jumpStarts (ns.map Node.unlinked) = jumpStarts ns := by
  have hjump (n : Node) : n.unlinked.shape.isJump = n.shape.isJump := by
    rw [Node.shape_unlinked]
    cases n.shape <;> rfl
  rw [jumpStarts, jumpStarts, Node.flatMap_preorder_unlinked, List.filter_map, List.map_map]
  simp only [Function.comp_def, hjump, Node.range_unlinked]

end Grammar

/-- Whether a cause is that of a jump with nothing to leave. -/
def BindCause.isJump : BindCause → Bool
  | breakOutsideLoop | continueOutsideLoop | returnOutsideFunction => true
  | _ => false

theorem Shape.isJump_of_jumpCause? {α : Type} {shape : Shape α} {cause : BindCause}
    (h : shape.jumpCause? = some cause) : cause.isJump ∧ shape.isJump := by
  cases shape <;> cases h <;> exact ⟨rfl, rfl⟩

namespace Lexical
open Grammar

/-! ### Reports about jumps -/

/-- A finding under the code of a cause, at a range. -/
def isAbout (cause : BindCause) (range : Range) (f : Finding) : Bool :=
  f.code = some cause.code.text ∧ f.place = some range

/-- A node at a range that jumps, with nothing to leave, for a cause. -/
def isStray (cause : BindCause) (range : Range) (n : Node) : Bool :=
  n.shape.jumpCause? = some cause ∧ n.range = range ∧ n.resolved = none

section
variable {cause : BindCause} {range : Range}

/-- The code of a jump tells its cause from all others. -/
theorem isAbout_finding (h : cause.isJump) (other : BindCause) (place : Range) :
    isAbout cause range (other.finding place) = decide (other = cause ∧ place = range) := by
  cases cause <;> cases other <;>
    simp_all [isAbout, BindCause.finding, BindCause.code, Code.text, BindCause.isJump]

theorem countP_complaints (h : cause.isJump) (standing : Standing) (n : Node) :
    (complaints standing n).countP (isAbout cause range) = if isStray cause range n then 1 else 0 := by
  have hname (name : String) : BindCause.undefined name none ≠ cause := by
    rintro rfl
    cases h
  cases hlink : n.resolved with
  | some id => simp [complaints, isStray, hlink]
  | none =>
    rw [complaints, hlink, isStray, hlink]
    unfold fault?
    cases n.shape
    case name => split <;> simp [isAbout_finding h, hname, Shape.jumpCause?]
    all_goals simp [isAbout_finding h, hname, Shape.jumpCause?, List.countP_cons]

theorem countP_complaintsIn (h : cause.isJump) (p : Program) :
    (complaintsIn p).countP (isAbout cause range) =
      (p.items.flatMap Node.preorder).countP (isStray cause range) := by
  rw [complaintsIn, ← map_places, List.countP_map]
  generalize places p = qs
  induction qs with
  | nil => rfl
  | cons q qs ih =>
    rw [List.flatMap_cons, List.countP_append, countP_complaints h, List.countP_cons, ih, Nat.add_comm]
    rfl

theorem countP_redefinitionsIn (h : cause.isJump) (p : Program) :
    (redefinitionsIn p).countP (isAbout cause range) = 0 := by
  rw [List.countP_eq_zero]
  intro f hf
  obtain ⟨scope, -, hf⟩ := List.mem_flatMap.mp hf
  obtain ⟨d, -, rfl⟩ := List.mem_map.mp hf
  rw [redefinition, isAbout_finding h, decide_eq_true_eq]
  rintro ⟨rfl, -⟩
  cases h

end

/-- Where jumps start at different places, each is the only one at its range. -/
theorem countP_isStray {ns : List Node} {n : Node} {cause : BindCause}
    (hapart : ((ns.filter (·.shape.isJump)).map (·.range.start.pos)).Pairwise (· < ·)) (hn : n ∈ ns)
    (hcause : n.shape.jumpCause? = some cause) :
    ns.countP (isStray cause n.range) = if n.resolved.isSome then 0 else 1 := by
  obtain ⟨earlier, later, rfl⟩ := List.append_of_mem hn
  have hjump := (Shape.isJump_of_jumpCause? hcause).2
  rw [List.pairwise_map, List.pairwise_filter, List.pairwise_append, List.pairwise_cons] at hapart
  obtain ⟨-, ⟨hlater, -⟩, hearlier⟩ := hapart
  -- Another stray jump at the same range would start where `n` does.
  have hbefore : earlier.countP (isStray cause n.range) = 0 := by
    refine List.countP_eq_zero.mpr fun m hm hstray => ?_
    obtain ⟨hm', hrange, -⟩ := of_decide_eq_true hstray
    have := hearlier m hm n List.mem_cons_self (Shape.isJump_of_jumpCause? hm').2 hjump
    rw [hrange] at this
    exact Nat.lt_irrefl _ this
  have hafter : later.countP (isStray cause n.range) = 0 := by
    refine List.countP_eq_zero.mpr fun m hm hstray => ?_
    obtain ⟨hm', hrange, -⟩ := of_decide_eq_true hstray
    have := hlater m hm hjump (Shape.isJump_of_jumpCause? hm').2
    rw [hrange] at this
    exact Nat.lt_irrefl _ this
  rw [List.countP_append, List.countP_cons, hbefore, hafter]
  cases hlink : n.resolved <;> simp [isStray, hcause, hlink]

end Lexical

namespace Binder
open Lexical Grammar

variable {above : List Ancestor} {n : Node}

theorem JumpLinked.returned {value : Option Node} (h : JumpLinked (contextsAbove above) n)
    (hn : n.shape = .returned value) (id : NodeId) :
    n.resolved = some id ↔ ∃ a, Nearest Ancestor.IsBody above a ∧ a.node.id = id := by
  unfold JumpLinked at h
  rw [hn] at h
  rw [h, enclosingFunction?_contextsAbove]

theorem JumpLinked.iterates (h : JumpLinked (contextsAbove above) n)
    (hn : n.shape = .broken ∨ n.shape = .continued) (id : NodeId) :
    n.resolved = some id ↔
      ∃ a, Nearest (fun a => a.IsBody ∨ a.IsLoop) above a ∧ a.IsLoop ∧ a.node.id = id := by
  unfold JumpLinked at h
  rcases hn with hn | hn
  all_goals
    rw [hn] at h
    rw [h, enclosingLoop?_contextsAbove]

/-- Every node of a program that was parsed and bound lies below one of its items. Wherever a jump lies, a
    `return` is linked to the nearest function or closure whose body it is in, and to nothing if there is
    none; a `break` or `continue` to the nearest of the bodies and loops that it is in, if that is a loop,
    and to nothing else. A jump that is linked to nothing is reported once under its code and at its
    range, and no other is. -/
theorem bind_links_jumps (source : Source) (log : Log) :
    ∃ new : List Diagnostic,
      (bind (parse source).1 log).2.1 = log.append new ∧
      (∀ n ∈ (bind (parse source).1 log).1.items.flatMap Node.preorder,
        ∃ item ∈ (bind (parse source).1 log).1.items, ∃ above, Below item above n) ∧
      ∀ item ∈ (bind (parse source).1 log).1.items, ∀ above n, Below item above n →
        (∀ value, n.shape = .returned value → ∀ id,
          n.resolved = some id ↔ ∃ a, Nearest Ancestor.IsBody above a ∧ a.node.id = id) ∧
        (n.shape = .broken ∨ n.shape = .continued → ∀ id, n.resolved = some id ↔
          ∃ a, Nearest (fun a => a.IsBody ∨ a.IsLoop) above a ∧ a.IsLoop ∧ a.node.id = id) ∧
        ∀ cause, n.shape.jumpCause? = some cause →
          new.countP (fun d => d.code = some cause.code.text ∧ d.primaryRange? = some n.range) =
            if n.resolved.isSome then 0 else 1 := by
  obtain ⟨hjumps, new, hlog, -, -, hperm⟩ :=
    bind_settled log (parse_properMembers source) (parse_unlinked source)
  have hunlinked := (bind_linked (parse source).1 log (parse_properMembers source)).1
  have hapart : (jumpStarts (bind (parse source).1 log).1.items).Pairwise (· < ·) := by
    have hitems : (bind (parse source).1 log).1.items.map Node.unlinked =
        (parse source).1.items.map Node.unlinked := congrArg Program.items hunlinked
    rw [← jumpStarts_unlinked, hitems, jumpStarts_unlinked]
    exact parse_jumps_apart source
  refine ⟨new, hlog, fun n hn => ?_, fun item hitem above n hbelow => ?_⟩
  · obtain ⟨item, hitem, hn⟩ := List.mem_flatMap.mp hn
    exact ⟨item, hitem, Below.exists_of_mem_preorder hn⟩
  have hlinked : JumpLinked (contextsAbove above) n := by
    have h := hjumps item hitem above n hbelow
    rwa [List.append_nil] at h
  refine ⟨fun value hn id => hlinked.returned hn id, fun hn id => hlinked.iterates hn id, ?_⟩
  intro cause hcause
  have hjump := (Shape.isJump_of_jumpCause? hcause).1
  have hmem : n ∈ (bind (parse source).1 log).1.items.flatMap Node.preorder :=
    List.mem_flatMap.mpr ⟨item, hitem, hbelow.mem_preorder⟩
  calc new.countP (fun d => d.code = some cause.code.text ∧ d.primaryRange? = some n.range)
      = (new.map Diagnostic.finding).countP (isAbout cause n.range) := by
        rw [List.countP_map]
        rfl
    _ = ((bind (parse source).1 log).1.items.flatMap Node.preorder).countP (isStray cause n.range) := by
        rw [hperm.countP_eq, List.countP_append, countP_complaintsIn hjump, countP_redefinitionsIn hjump,
          Nat.add_zero]
    _ = if n.resolved.isSome then 0 else 1 := countP_isStray hapart hmem hcause

end Binder

end BraceLang
