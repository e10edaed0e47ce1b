import BraceLang.Proofs.Grammar.Makes.Statements
import BraceLang.Proofs.Grammar.Words
import Mathlib.Data.List.Nodup
import Mathlib.Data.List.Perm.Basic

/-! The identities of the nodes of a parsed program. Nodes are numbered as they are made, parts before the
    node they belong to, so that the numbers increase along the nodes in that order; a number is missing
    only where a node was thrown away, and that is reported as a syntax error. -/

namespace BraceLang

theorem Node.find?_eq_some_of_mem {ns : List Node} {n : Node} (hn : n ∈ ns)
    (hids : ∀ m ∈ ns, m.id = n.id → m = n) : ns.find? (·.id == n.id) = some n := by
  have hsome : (ns.find? (·.id == n.id)).isSome = true :=
    List.find?_isSome.mpr ⟨n, hn, beq_self_eq_true _⟩
  obtain ⟨m, hfound⟩ := Option.isSome_iff_exists.mp hsome
  have hid : m.id = n.id := beq_iff_eq.mp (List.find?_some hfound :)
  rw [hfound, hids m (List.mem_of_find?_eq_some hfound) hid]

theorem Node.postorder_perm (n : Node) : n.postorder.Perm n.preorder := by
  induction n using Node.induct with
  | step n ih =>
    rw [postorder_eq, preorder_eq]
    exact (List.perm_append_singleton _ _).trans (.cons n (List.Perm.flatMap_left _ ih))

theorem Program.find?_eq (p : Program) (id : NodeId) :
    p.find? id = (p.items.flatMap Node.preorder).find? (·.id == id) := by
  rw [find?, List.find?_flatMap]
  rfl

namespace Grammar

variable {s t u : State} {ns : List Node} {ids more : List NodeId}

/-- The identities that are given out from one place to another: these are kept, and if no syntax error is
    reported they are all. -/
structure Numbers (s : State) (ids : List NodeId) (t : State) : Prop where
  nextId : s.nextId ≤ t.nextId
  complaints : s.complaints ≤ t.complaints
  sublist : List.Sublist ids (List.range' s.nextId (t.nextId - s.nextId))
  exact : t.complaints = s.complaints → ids = List.range' s.nextId (t.nextId - s.nextId)

namespace Numbers

theorem pass (h : Passes s t) : Numbers s [] t where
  nextId := h.nextId
  complaints := h.complaints
  sublist := List.nil_sublist _
  exact heq := by rw [h.exact heq, Nat.sub_self, List.range'_zero]

theorem range'_split {a b c : Nat} (h : a ≤ b) (h' : b ≤ c) :
    List.range' a (c - a) = List.range' a (b - a) ++ List.range' b (c - b) := by
  have hsplit := @List.range'_append_1 a (b - a) (c - b)
  have hlength : b - a + (c - b) = c - a := by omega
  rw [Nat.add_sub_cancel' h, hlength] at hsplit
  exact hsplit.symm

theorem trans (h : Numbers s ids t) (h' : Numbers t more u) : Numbers s (ids ++ more) u where
  nextId := Nat.le_trans h.nextId h'.nextId
  complaints := Nat.le_trans h.complaints h'.complaints
  sublist := by
    rw [range'_split h.nextId h'.nextId]
    exact h.sublist.append h'.sublist
  exact heq := by
    have hfirst : t.complaints = s.complaints :=
      Nat.le_antisymm (heq ▸ h'.complaints) h.complaints
    rw [range'_split h.nextId h'.nextId, ← h.exact hfirst, ← h'.exact (heq.trans hfirst.symm)]

/-- The next identity is given out. -/
theorem identified (h : Numbers s ids t) : Numbers s (ids ++ [t.nextId]) t.identified :=
  have hnext : Numbers t [t.nextId] t.identified :=
    { nextId := Nat.le_succ _
      complaints := Nat.le_refl _
      sublist := by simp [State.identified]
      exact := fun _ => by simp [State.identified] }
  h.trans hnext

theorem pairwise (h : Numbers s ids t) : ids.Pairwise (· < ·) :=
  (List.pairwise_lt_range' 1).sublist h.sublist

theorem lt_nextId (h : Numbers s ids t) {id : NodeId} (hid : id ∈ ids) : id < t.nextId := by
  have hrange := List.mem_range'_1.mp (h.sublist.subset hid)
  rw [Nat.add_sub_cancel' h.nextId] at hrange
  exact hrange.2

end Numbers

theorem Makes.numbers (h : Makes s ns t) : Numbers s ((ns.flatMap Node.postorder).map Node.id) t := by
  have made {s t : State} {shape : Shape Node} {range : Range}
      (hparts : Numbers s ((shape.toList.flatMap Node.postorder).map Node.id) t) :
      Numbers s (([⟨t.nextId, range, none, shape⟩].flatMap Node.postorder).map Node.id) t.identified := by
    rw [List.flatMap_singleton, Node.postorder_eq, List.map_append]
    exact hparts.identified
  induction h with
  | pass h => exact .pass h
  | both _ _ ih ih' =>
    rw [List.flatMap_append, List.map_append]
    exact ih.trans ih'
  | node _ _ _ ih => exact made ih
  | jump _ _ _ _ ih =>
    have hbehind := (Numbers.pass (.advance _)).trans ih
    exact made hbehind

end Grammar

open Grammar

theorem parse_ids_nodup (source : Source) :
    (((parse source).1.items.flatMap Node.preorder).map Node.id).Nodup := by
  obtain ⟨t, hmakes, -⟩ := parse_makes source
  have behind : (((parse source).1.items.flatMap Node.postorder).map Node.id).Nodup :=
    hmakes.numbers.pairwise.imp Nat.ne_of_lt
  have same := List.Perm.flatMap_left (parse source).1.items fun n _ => n.postorder_perm
  exact (same.map Node.id).nodup_iff.mp behind

/-- Along the nodes of a program, parts before the node they belong to, the identities increase; so they
    are distinct, and a node is found under its own. They are numbers below the count of the program, and
    all of them if no syntax error is reported. -/
theorem parse_numbers_nodes (source : Source) :
    (((parse source).1.items.flatMap Node.postorder).map Node.id).Pairwise (· < ·) ∧
    (∀ n ∈ (parse source).1.items.flatMap Node.postorder, n.id < (parse source).1.nodeCount) ∧
    (((parse source).1.items.flatMap Node.postorder).map Node.id).Nodup ∧
    (∀ n ∈ (parse source).1.items.flatMap Node.postorder, (parse source).1.find? n.id = some n) ∧
    ((∀ d ∈ (parse source).2.toList,
        d.code ≠ some "E0100" ∧ d.code ≠ some "E0101" ∧ d.code ≠ some "E0102") →
      ((parse source).1.items.flatMap Node.postorder).map Node.id = List.range (parse source).1.nodeCount) := by
  obtain ⟨t, hmakes, hcount, hlog⟩ := parse_makes source
  have hnumbers := hmakes.numbers
  have hpairwise := hnumbers.pairwise
  have hnodup : (((parse source).1.items.flatMap Node.postorder).map Node.id).Nodup :=
    hpairwise.imp Nat.ne_of_lt
  refine ⟨hpairwise, fun n hn => ?_, hnodup, fun n hn => ?_, fun hquiet => ?_⟩
  · rw [hcount]
    exact hnumbers.lt_nextId (List.mem_map_of_mem hn)
  · rw [Program.find?_eq]
    refine Node.find?_eq_some_of_mem (Node.mem_flatMap_postorder.mp hn) fun m hm hid => ?_
    exact List.inj_on_of_nodup_map hnodup (Node.mem_flatMap_postorder.mpr hm) hn hid
  · -- No syntax error in the log means no complaint, so every identity given out is kept.
    rw [hlog] at hquiet
    have hzero : t.complaints = 0 :=
      List.countP_eq_zero.mpr fun d hd => by simp [Diagnostic.isSyntax_eq_false (hquiet d hd)]
    have hle := hnumbers.complaints
    rw [hnumbers.exact (by omega), hcount, List.range_eq_range']
    rfl

theorem parse_numbers_nodes_sum :
    (∀ d ∈ (parse (Source.ofText 0 "a" "x = 1 + y")).2.toList,
      d.code ≠ some "E0100" ∧ d.code ≠ some "E0101" ∧ d.code ≠ some "E0102") ∧
    (parse (Source.ofText 0 "a" "x = 1 + y")).1.nodeCount = 6 ∧
    ((parse (Source.ofText 0 "a" "x = 1 + y")).1.items.flatMap Node.postorder).map Node.id =
      [0, 1, 2, 3, 4, 5] := by
  have quiet : (parse (Source.ofText 0 "a" "x = 1 + y")).2.toList = [] :=
    List.isEmpty_iff.mp (by decide +kernel)
  have h : ∀ d ∈ (parse (Source.ofText 0 "a" "x = 1 + y")).2.toList,
      d.code ≠ some "E0100" ∧ d.code ≠ some "E0101" ∧ d.code ≠ some "E0102" := by
    rw [quiet]
    exact List.forall_mem_nil _
  have count : (parse (Source.ofText 0 "a" "x = 1 + y")).1.nodeCount = 6 := by decide +kernel
  obtain ⟨-, -, -, -, hexact⟩ := parse_numbers_nodes (Source.ofText 0 "a" "x = 1 + y")
  exact ⟨h, count, (hexact h).trans (congrArg List.range count)⟩

end BraceLang
