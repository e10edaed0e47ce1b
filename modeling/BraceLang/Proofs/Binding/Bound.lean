import BraceLang.Proofs.Binding.Walk
import BraceLang.Proofs.Node.Members

/-! What the binder makes of nodes that stand one after another: the same nodes but for their links, and
    every place among them is linked as lexical scoping asks. -/

namespace BraceLang

namespace Lexical

/-! ### Scoping does not read links -/

theorem hoisted?_unlinked (n : Node) : hoisted? n.unlinked = hoisted? n := by
  unfold hoisted?
  rw [Node.id_unlinked, Node.shape_unlinked]
  cases n.shape <;> rfl

theorem bindsVariable_unlinked (n : Node) : bindsVariable n.unlinked = bindsVariable n := by
  unfold bindsVariable
  rw [Node.shape_unlinked]
  cases n.shape <;> rfl

theorem hoisted?_congr {m n : Node} (h : m.unlinked = n.unlinked) : hoisted? m = hoisted? n := by
  rw [← hoisted?_unlinked, h, hoisted?_unlinked]

theorem bindsVariable_congr {m n : Node} (h : m.unlinked = n.unlinked) :
    bindsVariable m = bindsVariable n := by
  rw [← bindsVariable_unlinked, h, bindsVariable_unlinked]

theorem hoisted_cons (n : Node) (ns : List Node) : hoisted (n :: ns) = (hoisted? n).toList ++ hoisted ns := by
  unfold hoisted
  rw [List.filterMap_cons]
  cases hoisted? n <;> rfl

theorem hoisted_singleton (n : Node) : hoisted [n] = (hoisted? n).toList := by
  rw [hoisted_cons]
  exact List.append_nil _

theorem hoisted_congr {ms ns : List Node} (h : ms.map Node.unlinked = ns.map Node.unlinked) :
    hoisted ms = hoisted ns := by
  induction ms generalizing ns with
  | nil =>
    obtain rfl := List.map_eq_nil_iff.mp h.symm
    rfl
  | cons m ms ih =>
    cases ns with
    | nil => cases h
    | cons n ns =>
      obtain ⟨hm, hms⟩ := List.cons.inj h
      rw [hoisted_cons, hoisted_cons, hoisted?_congr hm, ih hms]

theorem declares_eq (n : Node) : declares n = leaves n (n.shape.map fun x => (x, declares x)) :=
  n.fold_eq leaves

theorem leaves_unlinked (n : Node) (parts : Shape (Node × List Declaration)) :
    leaves n.unlinked (parts.map fun part => (part.1.unlinked, part.2)) = leaves n parts := by
  cases parts <;>
    simp [Shape.map, Shape.toList, leaves, List.flatMap_map, hoisted?_unlinked, bindsVariable_unlinked,
      Option.toList_map]

theorem declares_unlinked (n : Node) : declares n.unlinked = declares n := by
  induction n using Node.induct with
  | step n ih =>
    have parts : n.unlinked.shape.map (fun x => (x, declares x)) =
        (n.shape.map fun x => (x, declares x)).map fun part => (part.1.unlinked, part.2) := by
      rw [Node.shape_unlinked, Shape.map_map, Shape.map_map]
      refine Shape.map_congr fun x hx => ?_
      show (x.unlinked, declares x.unlinked) = (x.unlinked, declares x)
      rw [ih x hx]
    rw [declares_eq, parts, leaves_unlinked, ← declares_eq]

theorem Scopes.after_congr {ms ns : List Node} (scopes : Scopes)
    (h : ms.map Node.unlinked = ns.map Node.unlinked) : scopes.after ms = scopes.after ns := by
  have flat : ∀ ns : List Node, (ns.map Node.unlinked).flatMap declares = ns.flatMap declares := by
    intro ns
    rw [List.flatMap_map]
    exact List.flatMap_congr fun n _ => declares_unlinked n
  unfold after
  rw [← flat ms, h, flat ns]

/-! ### Places that are linked all the way down -/

/-- The place and all places below it are linked. -/
def Place.AllLinked (p : Place) : Prop := ∀ q, p.Reaches q → q.Linked

theorem Place.AllLinked.of_parts {p : Place} (h : p.Linked) (hparts : ∀ q ∈ p.parts, q.AllLinked) :
    p.AllLinked := by
  intro q hq
  cases hq with
  | refl => exact h
  | part hpart hrest => exact hparts _ hpart _ hrest

theorem inTurn_append (standing : Standing) (scopes : Scopes) (as bs : List Node) :
    inTurn standing scopes (as ++ bs) =
      inTurn standing scopes as ++ inTurn standing (scopes.after as) bs := by
  induction as generalizing scopes with
  | nil => simp [inTurn]
  | cons a as ih =>
    rw [List.cons_append, inTurn, inTurn, ih, Scopes.after_cons, Scopes.after_singleton]
    rfl

/-- `ns'` are the nodes `ns` but for their links, and are linked all the way down where they stand one
    after another. -/
structure Bound (standing : Standing) (scopes : Scopes) (ns ns' : List Node) : Prop where
  unlinked : ns'.map Node.unlinked = ns.map Node.unlinked
  linked : ∀ q ∈ inTurn standing scopes ns', q.AllLinked

namespace Bound
variable {standing : Standing} {scopes : Scopes} {as as' bs bs' : List Node} {n n' : Node}
variable {x x' : Option Node}

theorem nil : Bound standing scopes [] [] := ⟨rfl, fun _ h => absurd h List.not_mem_nil⟩

theorem append (ha : Bound standing scopes as as') (hb : Bound standing (scopes.after as) bs bs') :
    Bound standing scopes (as ++ bs) (as' ++ bs') where
  unlinked := by rw [List.map_append, List.map_append, ha.unlinked, hb.unlinked]
  linked q hq := by
    rw [inTurn_append, Scopes.after_congr scopes ha.unlinked] at hq
    rcases List.mem_append.mp hq with hq | hq
    · exact ha.linked q hq
    · exact hb.linked q hq

theorem cons (ha : Bound standing scopes [n] [n']) (hb : Bound standing (scopes.after [n]) bs bs') :
    Bound standing scopes (n :: bs) (n' :: bs') :=
  ha.append hb

theorem single (h : n'.unlinked = n.unlinked) (hl : (⟨standing, scopes, n'⟩ : Place).AllLinked) :
    Bound standing scopes [n] [n'] where
  unlinked := by simp [h]
  linked q hq := by
    obtain rfl := List.mem_singleton.mp hq
    exact hl

theorem node (h : Bound standing scopes [n] [n']) : n'.unlinked = n.unlinked := by
  simpa using h.unlinked

theorem place (h : Bound standing scopes [n] [n']) : (⟨standing, scopes, n'⟩ : Place).AllLinked :=
  h.linked _ List.mem_cons_self

theorem option (h : Bound standing scopes x.toList x'.toList) :
    x'.map Node.unlinked = x.map Node.unlinked := by
  have := h.unlinked
  cases x <;> cases x' <;> simp_all

theorem after (h : Bound standing scopes as as') (scopes : Scopes) : scopes.after as' = scopes.after as :=
  Scopes.after_congr scopes h.unlinked

end Bound

end Lexical

namespace Binder
open Lexical

/-- A node as a part of another. -/
def part (n : Node) : Part := (n, passes n)

@[simp] theorem part_fst (n : Node) : (part n).1 = n := rfl

/-- The node can be bound as such in any scopes. -/
def Binds (n : Node) : Prop :=
  ∀ scopes, Walks (passes n).whole scopes (scopes.after [n]) fun n' => Bound .plain scopes [n] [n']

/-- The node can be bound as an attribute in any scopes. -/
def BindsAttribute (n : Node) : Prop :=
  ∀ scopes, Walks (passes n).asAttribute scopes (scopes.after [n]) fun n' =>
    Bound .attribute scopes [n] [n']

namespace Walks
variable {scopes : Scopes} {ns : List Node} {x : Option Node}

theorem visit {n : Node} (h : Binds n) :
    Walks (Binder.visit (part n)) scopes (scopes.after [n]) fun n' => Bound .plain scopes [n] [n'] :=
  h scopes

theorem list {f : Part → BindM Node} {standing : Standing}
    (h : ∀ n ∈ ns, ∀ scopes, Walks (f (part n)) scopes (scopes.after [n]) fun n' =>
      Bound standing scopes [n] [n']) :
    Walks ((ns.map part).mapM f) scopes (scopes.after ns) (Bound standing scopes ns) := by
  induction ns generalizing scopes with
  | nil =>
    rw [List.map_nil, List.mapM_nil, Scopes.after_nil]
    exact .pure .nil
  | cons n ns ih =>
    rw [List.map_cons, List.mapM_cons, Scopes.after_cons]
    refine bind (h n List.mem_cons_self scopes) fun n' hn => ?_
    refine bind (ih fun m hm => h m (List.mem_cons_of_mem n hm)) fun ns' hns => ?_
    exact pure (hn.cons hns)

theorem visits (h : ∀ n ∈ ns, Binds n) :
    Walks ((ns.map part).mapM Binder.visit) scopes (scopes.after ns) (Bound .plain scopes ns) :=
  list h

theorem attributes (h : ∀ n ∈ ns, BindsAttribute n) :
    Walks ((ns.map part).mapM visitAttribute) scopes (scopes.after ns) (Bound .attribute scopes ns) :=
  list h

theorem option (h : ∀ n ∈ x, Binds n) :
    Walks ((x.map part).mapM Binder.visit) scopes (scopes.after x.toList) fun x' =>
      Bound .plain scopes x.toList x'.toList := by
  cases x with
  | none =>
    rw [Option.toList_none, Scopes.after_nil]
    exact pure .nil
  | some n => exact bind (visit (h n rfl)) fun n' hn => pure hn

theorem hoistAll (ns : List Node) :
    Walks ((ns.map part).forM fun part => Binder.hoist part.1) scopes (scopes.extend (hoisted ns))
      fun _ => True := by
  induction ns generalizing scopes with
  | nil =>
    rw [show hoisted [] = [] from rfl, Scopes.extend_nil]
    exact .pure trivial
  | cons n ns ih =>
    rw [hoisted_cons, ← Scopes.extend_extend]
    exact bind (hoist n) fun _ _ => ih

theorem visitScope (h : ∀ n ∈ ns, Binds n) :
    Walks (Binder.visitScope (ns.map part)) scopes ((scopes.extend (hoisted ns)).after ns)
      (Bound .plain (scopes.extend (hoisted ns)) ns) :=
  bind (hoistAll ns) fun _ _ => visits h

end Walks

end Binder

end BraceLang
