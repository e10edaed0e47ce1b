import BraceLang.Proofs.Node.Preorder
import BraceLang.Proofs.Node.Unlinked

/-! Going through the parts of a node. One way looks at each part (`Node.forParts`), the other puts what is made
    of each part in its place (`Node.mapParts`). Both meet the same parts in the same order, whatever is done with
    them, and the second leaves all else of the node as it is. So the two ways through a whole tree that they
    give, `Node.walk` and `Node.visit`, meet the same nodes in the same order.

    Main statement: `Node.traversals_agree`. -/

namespace BraceLang

/-! ### Parts of a construct -/

section
variable {m : Type → Type} [Monad m] {α β γ : Type} {f g : α → m β}

theorem optionMapM_map (f : α → m β) (g : γ → α) (x : Option γ) : (x.map g).mapM f = x.mapM (f ∘ g) := by
  cases x <;> rfl

variable [LawfulMonad m]

theorem mapM_toList (f : α → m β) (x : Option α) : x.toList.mapM f = Option.toList <$> x.mapM f := by
  cases x <;> simp

/-- A list whose elements are left as they are is left as it is. -/
theorem mapM_unchanged (act : α → m PUnit) (xs : List α) :
    (xs.mapM fun x => (fun _ => x) <$> act x) = (fun _ => xs) <$> forM xs act := by
  induction xs with
  | nil => simp
  | cons x xs ih => simp [ih]

theorem optionMapM_unchanged (act : α → m PUnit) (x : Option α) :
    (x.mapM fun x => (fun _ => x) <$> act x) = (fun _ => x) <$> forM x.toList act := by
  cases x <;> simp

omit [LawfulMonad m] in
theorem forM_congr {act act' : α → m PUnit} {xs : List α} (h : ∀ x ∈ xs, act x = act' x) :
    forM xs act = forM xs act' := by
  induction xs with
  | nil => rfl
  | cons x xs ih =>
    rw [List.forM_cons, List.forM_cons, h x List.mem_cons_self, ih fun y hy => h y (List.mem_cons_of_mem x hy)]

theorem forM_flatMap (act : β → m PUnit) (f : α → List β) (xs : List α) :
    forM (xs.flatMap f) act = forM xs fun x => forM (f x) act := by
  induction xs with
  | nil => rfl
  | cons x xs ih => simp [ih]

theorem discard_bind (x : m α) (f : α → m β) : discard (x >>= f) = x >>= fun a => discard (f a) := by
  simp [discard, map_const]

theorem discard_bind_left (x : m α) (y : m β) : (do discard x; y) = (do let _ ← x; y) := by
  simp [discard, map_const]

theorem discard_mapM (f : α → m β) (xs : List α) : discard (xs.mapM f) = forM xs fun x => discard (f x) := by
  induction xs with
  | nil => simp [discard, map_const]
  | cons x xs ih =>
    rw [List.forM_cons, ← ih]
    simp [discard, map_const]

namespace Shape

theorem traverse_map (f : α → m β) (g : γ → α) (s : Shape γ) : (s.map g).traverse f = s.traverse (f ∘ g) := by
  cases s <;> simp [traverse, map, optionMapM_map, Function.comp_def]

theorem traverse_congr {s : Shape α} (h : ∀ x ∈ s.toList, f x = g x) : s.traverse f = s.traverse g := by
  have shapes (f : α → m β) : s.traverse f = (s.map f).traverse id := (traverse_map id f s).symm
  rw [shapes f, shapes g, map_congr h]

/-- The parts are replaced one after another, in source order. -/
theorem toList_traverse (f : α → m β) (s : Shape α) : toList <$> s.traverse f = s.toList.mapM f := by
  cases s <;> simp [traverse, toList, mapM_toList]

theorem discard_traverse (f : α → m β) (s : Shape α) :
    discard (s.traverse f) = forM s.toList fun x => discard (f x) := by
  rw [← discard_mapM, ← toList_traverse]
  simp [discard, map_const]

/-- A construct whose parts are left as they are is left as it is. -/
theorem traverse_unchanged (act : α → m PUnit) (s : Shape α) :
    (s.traverse fun x => (fun _ => x) <$> act x) = (fun _ => s) <$> forM s.toList act := by
  cases s <;> simp [traverse, toList, mapM_unchanged, optionMapM_unchanged]

end Shape

end

/-! ### What is left of a construct without its parts -/

section
variable {σ α β : Type}

theorem stateM_bind (x : StateM σ α) (f : α → StateM σ β) (s : σ) : (x >>= f) s = f (x s).1 (x s).2 := rfl

theorem stateM_pure (a : α) (s : σ) : (pure a : StateM σ α) s = (a, s) := rfl

theorem forgotten_mapM (f : α → StateM σ β) (xs : List α) (s : σ) :
    (xs.mapM f s).1.map (fun _ => ()) = xs.map fun _ => () := by
  induction xs generalizing s with
  | nil => rfl
  | cons x xs ih =>
    rw [List.mapM_cons]
    exact congrArg (() :: ·) (ih (f x s).2)

theorem forgotten_optionMapM (f : α → StateM σ β) (x : Option α) (s : σ) :
    (x.mapM f s).1.map (fun _ => ()) = x.map fun _ => () := by
  cases x <;> rfl

/-- Whatever is put in the place of the parts, the construct is the same. -/
theorem Shape.forgotten_traverse (f : α → StateM σ β) (shape : Shape α) (s : σ) :
    (shape.traverse f s).1.map (fun _ => ()) = shape.map fun _ => () := by
  cases shape <;>
    simp only [traverse, map, stateM_bind, stateM_pure, forgotten_mapM, forgotten_optionMapM]

end

/-! ### Parts of a node -/

namespace Node

section
variable {m : Type → Type} [Monad m]

/-- Does `act` at each part of a node, in source order. -/
def forParts (act : Node → m PUnit) (n : Node) : m PUnit := forM n.children act

/-- Puts what `f` gives for each part of a node in its place, in source order. -/
def mapParts (f : Node → m Node) (n : Node) : m Node := return { n with shape := ← n.shape.traverse f }

/-- Does `act` at every node of a tree, parents before their parts. -/
def walk (act : Node → m PUnit) (n : Node) : m PUnit :=
  n.fold fun n parts => do
    act n
    forM parts.toList (·.2)

variable [LawfulMonad m]

omit [LawfulMonad m] in
theorem mk_eta (n : Node) : ⟨n.id, n.range, n.resolved, n.shape⟩ = n := by
  cases n
  rfl

theorem children_mapParts (f : Node → m Node) (n : Node) : children <$> n.mapParts f = n.children.mapM f := by
  rw [children, ← Shape.toList_traverse]
  simp [mapParts, children]

theorem discard_mapParts (f : Node → m Node) (n : Node) :
    discard (n.mapParts f) = n.forParts fun c => discard (f c) := by
  rw [forParts, children, ← Shape.discard_traverse]
  simp [mapParts, discard, map_const]

theorem mapParts_unchanged (act : Node → m PUnit) (n : Node) :
    (n.mapParts fun c => (fun _ => c) <$> act c) = (fun _ => n) <$> n.forParts act := by
  rw [mapParts, Shape.traverse_unchanged, bind_map_left, bind_pure_comp, mk_eta, forParts, children]

theorem mapParts_congr {f g : Node → m Node} {n : Node} (h : ∀ c ∈ n.children, f c = g c) :
    n.mapParts f = n.mapParts g := by
  rw [mapParts, mapParts, Shape.traverse_congr h]

theorem mapParts_pure (n : Node) : (n.mapParts pure : m Node) = pure n := by
  have unchanged := mapParts_unchanged (fun _ => (pure ⟨⟩ : m PUnit)) n
  have nothing : forM n.children (fun _ => (pure ⟨⟩ : m PUnit)) = pure ⟨⟩ := by
    induction n.children with
    | nil => rfl
    | cons c cs ih => simp [ih]
  simpa [forParts, nothing] using unchanged

/-! ### Nodes of a tree -/

theorem walk_eq (act : Node → m PUnit) (n : Node) : n.walk act = (do act n; n.forParts (walk act)) := by
  rw [walk, fold_eq, Shape.toList_map, List.forM_map]
  rfl

/-- Each node is met before its parts are, which are gone through one after another. -/
theorem visit_eq (f : Node → m Node) (n : Node) :
    n.visit f = (do let n' ← f n; mapParts (visit f) { n' with shape := n.shape }) := by
  rw [visit, fold_eq]
  simp only [Shape.traverse_map, mapParts]
  rfl

theorem walk_eq_preorder (act : Node → m PUnit) (n : Node) : n.walk act = forM n.preorder act := by
  induction n using Node.induct with
  | step n ih =>
    have parts : n.forParts (walk act) = forM n.children fun c => forM c.preorder act := forM_congr ih
    rw [walk_eq, preorder_eq, List.forM_cons, forM_flatMap, parts]

/-- Whatever is done with the nodes, those that are replaced are those that are looked at. -/
theorem discard_visit (f : Node → m Node) (n : Node) :
    discard (n.visit f) = n.walk fun m => discard (f m) := by
  induction n using Node.induct with
  | step n ih =>
    have parts : n.forParts (fun c => discard (c.visit f)) = n.forParts (walk fun m => discard (f m)) :=
      forM_congr ih
    have behind (n' : Node) : discard (mapParts (visit f) { n' with shape := n.shape }) =
        n.forParts (walk fun m => discard (f m)) := (discard_mapParts _ _).trans parts
    rw [visit_eq, walk_eq, discard_bind, discard_bind_left]
    exact bind_congr behind

/-- A tree whose nodes are left as they are is left as it is. -/
theorem visit_unchanged (act : Node → m PUnit) (n : Node) :
    (n.visit fun m => (fun _ => m) <$> act m) = (fun _ => n) <$> n.walk act := by
  induction n using Node.induct with
  | step n ih =>
    rw [visit_eq, walk_eq, bind_map_left, map_bind, mk_eta, mapParts_congr ih, mapParts_unchanged]

end

/-- Whatever is put in the place of its parts, a node says the same apart from them. -/
theorem label_mapParts {σ : Type} (f : Node → StateM σ Node) (n : Node) (s : σ) :
    (n.mapParts f s).1.label = n.label := by
  have shape : (n.shape.traverse f s).1.map (fun _ => ()) = n.shape.map fun _ => () :=
    Shape.forgotten_traverse f n.shape s
  simp only [mapParts, label, stateM_bind, stateM_pure, shape]

end Node

/-! ### Nodes of a program -/

/-- Does `act` at every node, item by item and parents before their parts. -/
def Program.walk {m : Type → Type} [Monad m] (act : Node → m PUnit) (p : Program) : m PUnit :=
  forM p.items (Node.walk act)

theorem Program.discard_visit {m : Type → Type} [Monad m] [LawfulMonad m] (f : Node → m Node) (p : Program) :
    discard (p.visit f) = p.walk fun n => discard (f n) := by
  have items : discard (p.items.mapM (Node.visit f)) = p.walk fun n => discard (f n) := by
    rw [discard_mapM, walk]
    exact forM_congr fun n _ => n.discard_visit f
  rw [← items]
  simp [visit, discard, map_const]

namespace Node

/-- Writes down which node is met. -/
def record (n : Node) : StateM (List NodeId) PUnit := modify (· ++ [n.id])

theorem forM_record (ns : List Node) (ids : List NodeId) :
    forM ns record ids = (⟨⟩, ids ++ ns.map (·.id)) := by
  induction ns generalizing ids with
  | nil => simp [stateM_pure]
  | cons n ns ih =>
    rw [List.forM_cons, stateM_bind, ih, List.map_cons, List.append_cons]
    rfl

theorem walk_record (n : Node) (ids : List NodeId) :
    n.walk record ids = (⟨⟩, ids ++ n.preorder.map (·.id)) := by
  rw [walk_eq_preorder, forM_record]

theorem visit_record (n : Node) (ids : List NodeId) :
    n.visit (fun m => (fun _ => m) <$> m.record) ids = (n, ids ++ n.preorder.map (·.id)) := by
  rw [visit_unchanged]
  exact congrArg (fun outcome : PUnit × List NodeId => (n, outcome.2)) (n.walk_record ids)

/-- The two ways through a tree agree. Whatever is done with the parts of a node, those whose place is taken are
    those that are looked at, one by one and in the same order; what is made of them are the parts of the outcome,
    which is the same node otherwise, and the very same node if each part is left as it is. So the walk that looks
    at the nodes of a tree and the one that replaces them, which go down by these two ways, have the same effect,
    on the nodes of one tree and on those of a program. Both meet the nodes in preorder. -/
theorem traversals_agree {σ : Type} (f : Node → StateM σ Node) (act : Node → StateM σ PUnit) (n : Node)
    (p : Program) (ids : List NodeId) :
    (children <$> n.mapParts f = n.children.mapM f ∧
      discard (n.mapParts f) = n.forParts (fun c => discard (f c)) ∧
      (∀ s, (n.mapParts f s).1.label = n.label) ∧
      (n.mapParts pure : StateM σ Node) = pure n) ∧
    (n.walk act = (do act n; n.forParts (walk act)) ∧
      n.visit f = (do let n' ← f n; mapParts (visit f) { n' with shape := n.shape })) ∧
    (discard (n.visit f) = n.walk (fun m => discard (f m)) ∧
      discard (p.visit f) = p.walk (fun m => discard (f m))) ∧
    (n.walk record ids = (⟨⟩, ids ++ n.preorder.map (·.id)) ∧
      n.visit (fun m => (fun _ => m) <$> m.record) ids = (n, ids ++ n.preorder.map (·.id))) :=
  ⟨⟨n.children_mapParts f, n.discard_mapParts f, n.label_mapParts f, n.mapParts_pure⟩,
    ⟨n.walk_eq act, n.visit_eq f⟩, ⟨n.discard_visit f, p.discard_visit f⟩,
    ⟨n.walk_record ids, n.visit_record ids⟩⟩

end Node

end BraceLang
