import BraceLang.Proofs.Binding.Account
import BraceLang.Proofs.Binding.Constructs
import BraceLang.Proofs.Node.Traversal

/-! What binding may change. Whatever the state of the binder, a node that was bound is the node before it
    but for its links, and which nodes can be linked is settled by where they stand: uses of names and
    types, and jumps (`Relinks`). -/

namespace BraceLang

/-! ### Parts beside what is made of them -/

/-- A value beside what `f` gives for it. -/
def beside {m : Type → Type} [Monad m] {α β : Type} (f : α → m β) (x : α) : m (α × β) := return (x, ← f x)

section
variable {m : Type → Type} [Monad m] [LawfulMonad m] {α β : Type} (f : α → m β)

theorem mapM_eq_beside (xs : List α) : xs.mapM f = List.map Prod.snd <$> xs.mapM (beside f) := by
  induction xs with
  | nil => simp
  | cons x xs ih => simp [ih, beside]

theorem optionMapM_eq_beside (x : Option α) : x.mapM f = Option.map Prod.snd <$> x.mapM (beside f) := by
  cases x <;> simp [beside]

theorem Shape.traverse_eq_beside (s : Shape α) : s.traverse f = Shape.map Prod.snd <$> s.traverse (beside f) := by
  cases s <;> simp [traverse, map, mapM_eq_beside f, optionMapM_eq_beside f] <;> simp [beside]

end

namespace Lexical

/-- Whether a construct that stands as given can be linked. -/
def Standing.links {α : Type} (standing : Standing) : Shape α → Bool
  | .name _ => standing = .plain
  | .named .. | .returned _ | .broken | .continued => standing ≠ .selector
  | _ => false

/-- A node before and after it was bound where it stands as given: it has other links at most, and only
    where there can be any. -/
inductive Relinks : Standing → Node → Node → Prop where
  | mk {standing : Standing} {n n' : Node} (pairs : Shape (Node × Node)) (before : n.shape = pairs.map Prod.fst)
    (after : n'.shape = pairs.map Prod.snd) (id : n'.id = n.id) (range : n'.range = n.range)
    (link : n'.resolved = n.resolved ∨ standing.links n.shape = true)
    (parts : ∀ p ∈ seats standing pairs, Relinks p.1.standing p.2.1 p.2.2) : Relinks standing n n'

/-- Nodes, each before and after it was bound. -/
def RelinksPairs (standing : Standing) (pairs : List (Node × Node)) : Prop :=
  ∀ p ∈ pairs, Relinks standing p.1 p.2

/-- Parts of a construct, each before and after it was bound in its seat. -/
def RelinksSeats (ps : List (Seat × Node × Node)) : Prop := ∀ p ∈ ps, Relinks p.1.standing p.2.1 p.2.2

/-- Nodes before and after they were bound, one by one. -/
def RelinksAll (standing : Standing) (ns ns' : List Node) : Prop :=
  ∃ pairs : List (Node × Node), ns = pairs.map Prod.fst ∧ ns' = pairs.map Prod.snd ∧
    RelinksPairs standing pairs

def RelinksAny (standing : Standing) (x x' : Option Node) : Prop :=
  ∃ pair : Option (Node × Node), x = pair.map Prod.fst ∧ x' = pair.map Prod.snd ∧
    RelinksPairs standing pair.toList

section
variable {p : Seat × Node × Node} {ps qs : List (Seat × Node × Node)}

@[simp] theorem Seat.standing_plain : Seat.plain.standing = .plain := rfl

@[simp] theorem Seat.standing_attribute : Seat.attribute.standing = .attribute := rfl

@[simp] theorem relinksSeats_nil : RelinksSeats [] ↔ True := iff_true_intro (List.forall_mem_nil _)

@[simp] theorem relinksSeats_cons :
    RelinksSeats (p :: ps) ↔ Relinks p.1.standing p.2.1 p.2.2 ∧ RelinksSeats ps := List.forall_mem_cons

@[simp] theorem relinksSeats_append : RelinksSeats (ps ++ qs) ↔ RelinksSeats ps ∧ RelinksSeats qs :=
  List.forall_mem_append

@[simp] theorem relinksSeats_each {seat : Seat} {pairs : List (Node × Node)} :
    RelinksSeats (each seat pairs) ↔ RelinksPairs seat.standing pairs := List.forall_mem_map

end

theorem map_snd_seats {α : Type} (standing : Standing) (shape : Shape α) :
    (seats standing shape).map Prod.snd = shape.toList := by
  cases shape <;> simp [seats, Shape.toList]

/-- Only attributes that are calls have their parts stand otherwise than those of plain nodes. -/
theorem seats_restand {α : Type} {standing : Standing} {shape : Shape α}
    (h : standing = .attribute → ∀ callee args, shape ≠ .call callee args) :
    seats standing shape = seats .plain shape := by
  cases shape
  case call callee args =>
    have other : standing ≠ .attribute := fun ha => h ha callee args rfl
    simp [seats, other]
  all_goals rfl

namespace Relinks
variable {standing : Standing} {n n' : Node}

theorem refl (standing : Standing) (n : Node) : Relinks standing n n := by
  induction n using Node.induct generalizing standing with
  | step n ih =>
    have both {f : Node × Node → Node} (h : ∀ c, f (c, c) = c) :
        n.shape = (n.shape.map fun c => (c, c)).map f := by
      rw [Shape.map_map, show f ∘ (fun c => (c, c)) = id from funext h, Shape.map_id]
    refine .mk (n.shape.map fun c => (c, c)) (both fun _ => rfl) (both fun _ => rfl) rfl rfl (.inl rfl) ?_
    intro p hp
    rw [seats_map] at hp
    obtain ⟨q, hq, rfl⟩ := List.mem_map.mp hp
    refine ih q.2 ?_ q.1.standing
    rw [Node.children, ← map_snd_seats standing]
    exact List.mem_map_of_mem hq

/-- A node with its link and its parts renewed. -/
theorem of_parts {resolved : Option NodeId} (pairs : Shape (Node × Node))
    (before : n.shape = pairs.map Prod.fst) (link : resolved = n.resolved ∨ standing.links n.shape = true)
    (parts : RelinksSeats (seats standing pairs)) :
    Relinks standing n { n with resolved, shape := pairs.map Prod.snd } :=
  .mk pairs before rfl rfl rfl link parts

theorem unlinked (h : Relinks standing n n') : n'.unlinked = n.unlinked := by
  induction h with
  | @mk standing n n' pairs before after id range link _ ih =>
    have parts : n'.shape.map Node.unlinked = n.shape.map Node.unlinked := by
      rw [before, after, Shape.map_map, Shape.map_map]
      refine Shape.map_congr fun p hp => ?_
      rw [← map_snd_seats standing] at hp
      obtain ⟨q, hq, rfl⟩ := List.mem_map.mp hp
      exact ih q hq
    rw [Node.unlinked_eq, Node.unlinked_eq n, id, range, parts]

/-- A node that is no bare name is linked wherever it stands, an attribute that is a call apart. -/
theorem restand (h : Relinks .plain n n') (name : Binder.isName n = false) (selector : standing ≠ .selector)
    (call : standing = .attribute → ∀ callee args, n.shape ≠ .call callee args) : Relinks standing n n' := by
  obtain ⟨pairs, before, after, id, range, link, parts⟩ := h
  refine .mk pairs before after id range (link.imp_right fun links => ?_) ?_
  · unfold Binder.isName at name
    generalize n.shape = shape at name links
    cases shape
    case name => cases name
    case named | returned | broken | continued => exact decide_eq_true selector
    all_goals cases links
  · rw [seats_restand]
    · exact parts
    · rintro ha callee args rfl
      exact call ha _ _ before

end Relinks

end Lexical

namespace Binder
open Lexical

/-! ### What steps give, whatever the state -/

/-- What the step gives is as `post` says, from every state. -/
def Results {α : Type} (m : BindM α) (post : α → Prop) : Prop := ∀ s : State, post (m s).1

namespace Results
variable {α β : Type} {post : α → Prop}

theorem any (m : BindM α) : Results m fun _ => True := fun _ => trivial

theorem pure {a : α} (h : post a) : Results (pure a) post := fun _ => h

theorem bind {m : BindM α} {f : α → BindM β} {mid : α → Prop} {post : β → Prop} (hm : Results m mid)
    (hf : ∀ a, mid a → Results (f a) post) : Results (m >>= f) post := fun s => hf _ (hm s) _

theorem mono {m : BindM α} {weaker : α → Prop} (hm : Results m post) (h : ∀ a, post a → weaker a) :
    Results m weaker := fun s => h _ (hm s)

theorem map {m : BindM α} {g : α → β} {post : β → Prop} (h : Results m fun a => post (g a)) :
    Results (g <$> m) post := fun s => h s

theorem inScope {m : BindM α} (h : Results m post) : Results (Binder.inScope m) post := fun _ => h _

theorem inContext {m : BindM α} {context : Context} (h : Results m post) :
    Results (Binder.inContext context m) post := fun _ => h _

theorem inScopeIf {m : BindM α} {own : Bool} (h : Results m post) : Results (Binder.inScopeIf own m) post := by
  cases own
  · exact h
  · exact h.inScope

end Results

/-- The node is bound as one that stands as `plain`, and as an attribute. -/
structure Bindable (n : Node) : Prop where
  whole : Results (passes n).whole (Relinks .plain n)
  asAttribute : Results (passes n).asAttribute (Relinks .attribute n)

namespace Results
variable {standing : Standing} {n : Node} {ns : List Node} {x : Option Node} {f : Node → BindM Node}

theorem beside (h : Results (f n) (Relinks standing n)) :
    Results (beside f n) fun p => p.1 = n ∧ Relinks standing p.1 p.2 :=
  bind h fun _ hn => pure ⟨rfl, hn⟩

theorem besides (h : ∀ n ∈ ns, Results (f n) (Relinks standing n)) :
    Results (ns.mapM (BraceLang.beside f)) fun pairs =>
      pairs.map Prod.fst = ns ∧ RelinksPairs standing pairs := by
  induction ns with
  | nil => exact .pure ⟨rfl, List.forall_mem_nil _⟩
  | cons n ns ih =>
    rw [List.mapM_cons]
    refine bind (beside (h n List.mem_cons_self)) fun p hp => ?_
    refine bind (ih fun m hm => h m (List.mem_cons_of_mem n hm)) fun pairs hpairs => pure ⟨?_, ?_⟩
    · rw [List.map_cons, hp.1, hpairs.1]
    · exact List.forall_mem_cons.mpr ⟨hp.2, hpairs.2⟩

theorem besideOption (h : ∀ n ∈ x.toList, Results (f n) (Relinks standing n)) :
    Results (x.mapM (BraceLang.beside f)) fun pair =>
      pair.map Prod.fst = x ∧ RelinksPairs standing pair.toList := by
  cases x with
  | none => exact pure ⟨rfl, List.forall_mem_nil _⟩
  | some n =>
    refine bind (beside (h n List.mem_cons_self)) fun p hp => pure ⟨congrArg some hp.1, ?_⟩
    exact List.forall_mem_singleton.mpr hp.2

theorem visit (h : Bindable n) : Results (Binder.visit (part n)) (Relinks .plain n) := h.whole

theorem list {f : Part → BindM Node} (h : ∀ n ∈ ns, Results (f (part n)) (Relinks standing n)) :
    Results ((ns.map part).mapM f) (RelinksAll standing ns) := by
  rw [List.mapM_map, mapM_eq_beside]
  exact map ((besides h).mono fun pairs hpairs => ⟨pairs, hpairs.1.symm, rfl, hpairs.2⟩)

theorem visits (h : ∀ n ∈ ns, Bindable n) : Results ((ns.map part).mapM Binder.visit) (RelinksAll .plain ns) :=
  list fun n hn => (h n hn).whole

theorem attributes (h : ∀ n ∈ ns, Bindable n) :
    Results ((ns.map part).mapM visitAttribute) (RelinksAll .attribute ns) :=
  list fun n hn => (h n hn).asAttribute

theorem visitScope (h : ∀ n ∈ ns, Bindable n) :
    Results (Binder.visitScope (ns.map part)) (RelinksAll .plain ns) := bind (any _) fun _ _ => visits h

theorem option (h : ∀ n ∈ x.toList, Bindable n) :
    Results ((x.map part).mapM Binder.visit) (RelinksAny .plain x) := by
  rw [optionMapM_map, optionMapM_eq_beside]
  exact map ((besideOption fun n hn => (h n hn).whole).mono fun pair hpair => ⟨pair, hpair.1.symm, rfl, hpair.2⟩)

theorem macroTarget (h : Bindable n) : Results (visitMacroTarget (part n)) (Relinks .macroTarget n) := by
  unfold visitMacroTarget
  rw [part_fst]
  split
  · exact pure (.refl _ n)
  · rename_i name
    exact (visit h).mono fun n' hn => hn.restand (by simpa using name) (by decide) fun h => by cases h

/-- A construct whose parts are bound in source order. -/
theorem traverse {shape : Shape Node} (plain : isPlain shape = true)
    (h : ∀ c ∈ shape.toList, Results (f c) (Relinks .plain c)) :
    Results (shape.traverse (BraceLang.beside f)) fun pairs =>
      pairs.map Prod.fst = shape ∧ RelinksPairs .plain pairs.toList := by
  cases shape
  case bool | int | float | char | str | null | dot | prim => exact pure ⟨rfl, List.forall_mem_nil _⟩
  case group | prefixed | postfixed | spread | fieldInit | exprStmt | pointer | optional =>
    refine bind (beside (h _ List.mem_cons_self)) fun p hp => pure ⟨?_, List.forall_mem_singleton.mpr hp.2⟩
    rw [Shape.map, hp.1]
  case template | tuple | array | tupleType =>
    refine bind (besides h) fun ps hps => pure ⟨?_, hps.2⟩
    rw [Shape.map, hps.1]
  case yield =>
    refine bind (besideOption h) fun x hx => pure ⟨?_, hx.2⟩
    rw [Shape.map, hx.1]
  case binary | assign | cast =>
    obtain ⟨first, second⟩ := List.forall_mem_cons.mp h
    refine bind (beside first) fun p hp => bind (beside (second _ List.mem_cons_self)) fun q hq => pure ⟨?_, ?_⟩
    · rw [Shape.map, hp.1, hq.1]
    · exact List.forall_mem_cons.mpr ⟨hp.2, List.forall_mem_singleton.mpr hq.2⟩
  case call | new | index | structLiteral =>
    obtain ⟨first, others⟩ := List.forall_mem_cons.mp h
    refine bind (beside first) fun p hp => bind (besides others) fun ps hps => pure ⟨?_, ?_⟩
    · rw [Shape.map, hp.1, hps.1]
    · exact List.forall_mem_cons.mpr ⟨hp.2, hps.2⟩
  case signature | funcType =>
    obtain ⟨params, result⟩ := List.forall_mem_append.mp h
    refine bind (besides params) fun ps hps => bind (besideOption result) fun x hx => pure ⟨?_, ?_⟩
    · rw [Shape.map, hps.1, hx.1]
    · exact List.forall_mem_append.mpr ⟨hps.2, hx.2⟩
  case arrayType =>
    obtain ⟨element, size⟩ := List.forall_mem_cons.mp h
    refine bind (beside element) fun p hp => bind (besideOption size) fun x hx => pure ⟨?_, ?_⟩
    · rw [Shape.map, hp.1, hx.1]
    · exact List.forall_mem_cons.mpr ⟨hp.2, hx.2⟩
  case ternary =>
    obtain ⟨condition, others⟩ := List.forall_mem_cons.mp h
    obtain ⟨whenTrue, whenFalse⟩ := List.forall_mem_append.mp others
    refine bind (beside condition) fun p hp => bind (besideOption whenTrue) fun x hx =>
      bind (beside (whenFalse _ List.mem_cons_self)) fun q hq => pure ⟨?_, ?_⟩
    · rw [Shape.map, hp.1, hx.1, hq.1]
    · refine List.forall_mem_cons.mpr ⟨hp.2, List.forall_mem_append.mpr ⟨hx.2, ?_⟩⟩
      exact List.forall_mem_singleton.mpr hq.2
  all_goals cases plain

end Results

end Binder

end BraceLang
