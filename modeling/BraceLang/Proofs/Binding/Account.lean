import BraceLang.Proofs.Binding.Findings
import BraceLang.Proofs.Binding.Regions
import Mathlib.Algebra.BigOperators.Group.List.Basic
import Mathlib.Algebra.Group.Prod
import Mathlib.Algebra.Order.Group.Multiset
import Mathlib.Tactic.Abel

/-! The account of a tree: what there is to find in it, without order, and how many names it links. It is
    the sum over all places (`sum_own_all`), and can be drawn up node by node (`account_eq`) from the seats
    of the parts of each construct. -/

namespace BraceLang

namespace Lexical

/-! ### Seats -/

/-- The part that a node plays for the node around it, for names and for jumps. -/
structure Seat where
  standing : Standing
  region : Region

/-- Where a use of a name can stand, outside bodies and loops. -/
def Seat.plain : Seat := ⟨.plain, .other⟩

def Seat.attribute : Seat := ⟨.attribute, .other⟩

/-- The parts of a construct in source order, each with its seat; the construct itself stands as given. -/
def seats {α : Type} (standing : Standing) : Shape α → List (Seat × α)
  | .member target member _ => [(Seat.plain, target), (⟨.selector, .other⟩, member)]
  | .macroName target => [(⟨.macroTarget, .other⟩, target)]
  | .macroCall target args => (⟨.macroTarget, .other⟩, target) :: each Seat.plain args
  | .call callee args =>
    (⟨if standing = .attribute then .attributeCallee else .plain, .other⟩, callee) ::
      each Seat.plain args
  | .var attrs _ _ _ type init =>
    each Seat.attribute attrs ++ each Seat.plain (type.toList ++ init.toList)
  | .func attrs _ _ _ _ generics signature body =>
    each Seat.attribute attrs ++ (each Seat.plain (generics ++ [signature]) ++
      each (Seat.mk .plain .function) body.toList)
  | .closure _ signature body => [(Seat.plain, signature), (⟨.plain, .closure⟩, body)]
  | .struct attrs _ _ generics members =>
    each Seat.attribute attrs ++ each Seat.plain (generics ++ members)
  | .field attrs _ _ type default =>
    each Seat.attribute attrs ++ each Seat.plain (type :: default.toList)
  | .enum attrs _ _ base options =>
    each Seat.attribute attrs ++ each Seat.plain (base.toList ++ options)
  | .enumOption attrs _ value =>
    each Seat.attribute attrs ++ each Seat.plain value.toList
  | .typeAlias attrs _ _ generics type =>
    each Seat.attribute attrs ++ each Seat.plain (generics ++ [type])
  | .union attrs _ _ generics members =>
    each Seat.attribute attrs ++ each Seat.plain (generics ++ members)
  | .whileLoop condition body => [(Seat.plain, condition), (⟨.plain, .loop⟩, body)]
  | .forLoop init condition step body =>
    each Seat.plain init.toList ++
      each (Seat.mk .plain .loop) (condition.toList ++ step.toList ++ [body])
  | shape => each Seat.plain shape.toList

theorem seats_map {α β : Type} (f : α → β) (standing : Standing) (shape : Shape α) :
    seats standing (shape.map f) = (seats standing shape).map fun p => (p.1, f p.2) := by
  cases shape <;> simp [seats, Shape.map, Shape.toList, Option.toList_map, each, Function.comp_def]

/-- The regions of the parts are those that jumps see. -/
theorem map_region_seats (standing : Standing) (shape : Shape Node) :
    (seats standing shape).map (fun p => (p.1.region, p.2)) = shape.regions := by
  cases shape <;> simp [seats, Shape.regions, Shape.toList, Seat.plain, Seat.attribute, each, Function.comp_def]

/-- The parts stand as lexical scoping has them. -/
theorem map_standing_seats (p : Place) :
    (seats p.standing p.node.shape).map (fun q => (q.1.standing, q.2)) =
      p.parts.map fun q => (q.standing, q.node) := by
  have turn (standing : Standing) (scopes : Scopes) (ns : List Node) :
      (inTurn standing scopes ns).map (fun q => (q.standing, q.node)) = ns.map (standing, ·) := by
    induction ns generalizing scopes with
    | nil => rfl
    | cons n ns ih => rw [inTurn, List.map_cons, List.map_cons, ih]
  unfold Place.parts
  cases p.node.shape <;> simp [seats, turn, Shape.toList, Seat.plain, Seat.attribute]

/-! ### Accounts -/

/-- Findings, without order, and a number of links. -/
abbrev Account := Multiset Finding × Nat

def redefined (scope : List Introduction) : Account := (↑((redefinitions scope).map redefinition), 0)

/-- What there is to find about a node itself, and whether it is a name that is linked. -/
def noted (standing : Standing) (n : Node) : Account :=
  (↑(complaints standing n), if n.shape.isNaming && n.resolved.isSome then 1 else 0)

/-- What is declared again in the scope that a node opens. -/
def overlaps (n : Node) : Account := ((opened? n).map redefined).getD 0

def own (standing : Standing) (n : Node) : Account := noted standing n + overlaps n

/-- What there is to find in a tree, and how many names in it are linked. -/
def account (standing : Standing) (n : Node) : Account :=
  n.fold (fun n (parts : Shape (Node × (Standing → Account))) standing =>
    own standing n + ((seats standing parts).map fun p => p.2.2 p.1.standing).sum) standing

theorem account_eq (standing : Standing) (n : Node) :
    account standing n =
      own standing n + ((seats standing n.shape).map fun p => account p.1.standing p.2).sum := by
  rw [account, Node.fold_eq, seats_map, List.map_map]
  rfl

def accounts (standing : Standing) (ns : List Node) : Account := (ns.map (account standing)).sum

@[simp] theorem accounts_nil (standing : Standing) : accounts standing [] = 0 := rfl

@[simp] theorem accounts_cons (standing : Standing) (n : Node) (ns : List Node) :
    accounts standing (n :: ns) = account standing n + accounts standing ns := List.sum_cons

theorem accounts_append (standing : Standing) (ms ns : List Node) :
    accounts standing (ms ++ ns) = accounts standing ms + accounts standing ns := by
  rw [accounts, List.map_append, List.sum_append]
  rfl

/-! ### The account place by place -/

theorem sum_own_all (p : Place) :
    (p.all.map fun q => own q.standing q.node).sum = account p.standing p.node := by
  induction p using Place.induct with
  | step p ih =>
    have parts : (p.parts.flatMap Place.all).map (fun q => own q.standing q.node) =
        p.parts.flatMap fun part => part.all.map fun q => own q.standing q.node := List.map_flatMap
    have seated : (seats p.standing p.node.shape).map (fun q => account q.1.standing q.2) =
        p.parts.map fun part => account part.standing part.node := by
      have h := congrArg (List.map fun q => account q.1 q.2) (map_standing_seats p)
      rw [List.map_map, List.map_map] at h
      exact h
    rw [Place.all_eq, List.map_cons, List.sum_cons, parts, List.flatMap, List.sum_flatten, List.map_map,
      account_eq, seated]
    exact congrArg (_ + List.sum ·) (List.map_congr_left ih)

/-- The account of some places, as lists. -/
theorem sum_own (qs : List Place) : (qs.map fun q => own q.standing q.node).sum =
    ((↑(qs.flatMap (fun q => complaints q.standing q.node) ++
        ((qs.map (·.node)).filterMap opened?).flatMap fun scope => (redefinitions scope).map redefinition) :
        Multiset Finding),
      (qs.map (·.node)).countP fun n => n.shape.isNaming && n.resolved.isSome) := by
  induction qs with
  | nil => rfl
  | cons q qs ih =>
    rw [List.map_cons, List.sum_cons, ih, own, noted, overlaps, List.flatMap_cons, List.map_cons,
      List.filterMap_cons, List.countP_cons]
    cases opened? q.node with
    | none => exact Prod.ext (by simp [← Multiset.coe_add]) (by simp [Nat.add_comm])
    | some scope =>
      refine Prod.ext ?_ (by simp [redefined, Nat.add_comm])
      simp only [redefined, Option.map_some, Option.getD_some, Prod.fst_add, List.flatMap_cons,
        ← Multiset.coe_add]
      abel

end Lexical

end BraceLang
