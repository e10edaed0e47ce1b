import BraceLang.Proofs.Binding.Frame
import BraceLang.Proofs.Binding.Told
import BraceLang.Proofs.Grammar.Conduct

/-! Where the places that binding names come from. A declaration is made by a name that is written in the
    tree (`name_mem_of_mem_introduced`), so what is found wrong with a program is told of its nodes and names
    (`findings_within`). Binding moves neither (`Relinks.located`), so what it reports of a program lies where
    the program does (`bind_within`). -/

namespace BraceLang

variable {area : Area}

/-! ### Names written in a tree -/

/-- The names written at a node and below it. -/
def Node.names (n : Node) : List Ident := n.preorder.flatMap fun m => m.shape.idents

theorem Node.names_eq (n : Node) : n.names = n.shape.idents ++ n.children.flatMap Node.names := by
  rw [names, preorder_eq, List.flatMap_cons, List.flatMap_assoc]
  rfl

theorem Node.names_subset {n c : Node} (h : c ∈ n.children) : c.names ⊆ n.names := by
  rw [n.names_eq]
  exact fun name hname => List.mem_append_right _ (List.mem_flatMap.mpr ⟨c, h, hname⟩)

theorem Node.names_subset_of_mem_preorder {n m : Node} (h : m ∈ n.preorder) : m.names ⊆ n.names := by
  induction n using Node.induct with
  | step n ih =>
    rw [preorder_eq, List.mem_cons, List.mem_flatMap] at h
    rcases h with rfl | ⟨c, hc, h⟩
    · exact List.Subset.refl _
    · exact List.Subset.trans (ih c hc h) (names_subset hc)

theorem Shape.idents_map {α β : Type} (f : α → β) (shape : Shape α) : (shape.map f).idents = shape.idents := by
  cases shape <;> rfl

namespace Lexical
variable {n : Node} {ns : List Node} {d : Introduction}

theorem name_mem_of_ahead? (h : ahead? n = some d) : d.name ∈ n.names := by
  have own : d.name ∈ n.shape.idents := by
    unfold ahead? at h
    split at h
    case h_6 => cases h
    all_goals
      rename_i shape
      cases h
      rw [shape]
      exact List.mem_singleton_self _
  rw [n.names_eq]
  exact List.mem_append_left _ own

/-- What a node adds to a scope is declared by a name of its own, or comes from one of its parts. -/
theorem mem_introduces {parts : Shape (Node × List Introduction)} (h : d ∈ introduces n parts) :
    d.name ∈ parts.idents ∨ ∃ part ∈ parts.toList, d ∈ part.2 ∨ ahead? part.1 = some d := by
  have below {ps : List (Node × List Introduction)} (hsub : ps ⊆ parts.toList) (hd : d ∈ ps.flatMap (·.2)) :
      d.name ∈ parts.idents ∨ ∃ part ∈ parts.toList, d ∈ part.2 ∨ ahead? part.1 = some d := by
    obtain ⟨part, hpart, hd⟩ := List.mem_flatMap.mp hd
    exact .inr ⟨part, hsub hpart, .inl hd⟩
  unfold introduces at h
  split at h
  -- a variable declares the names of its pattern, after its parts
  case h_1 =>
    rcases List.mem_append.mp h with h | h
    · exact below (List.Subset.refl _) h
    · obtain ⟨name, hname, rfl⟩ := List.mem_map.mp h
      exact .inl hname
  -- a parameter, a generic, an option and a field declare their own name
  case h_2 | h_3 | h_4 | h_5 =>
    rcases List.mem_append.mp h with h | h
    · exact below (List.Subset.refl _) h
    · rw [List.mem_singleton.mp h]
      exact .inl (List.mem_singleton_self _)
  -- of a function or type only the attributes, and the base of an enum, stand outside its scope
  case h_6 | h_7 | h_8 | h_9 | h_10 => exact below (by simp [Shape.toList]) h
  case h_11 | h_12 | h_13 => cases h
  case h_14 | h_15 =>
    split at h
    · cases h
    · exact below (List.Subset.refl _) h
  -- a deferred declaration is made ahead of its place
  case h_16 =>
    refine .inr ⟨_, List.mem_singleton_self _, ?_⟩
    rw [List.mem_append, Option.mem_toList] at h
    exact h.symm
  case h_17 => exact below (List.Subset.refl _) h

/-- What a tree adds to a scope is declared by names written in it. -/
theorem name_mem_of_mem_introduced (h : d ∈ introduced n) : d.name ∈ n.names := by
  induction n using Node.induct with
  | step n ih =>
    rw [introduced_eq] at h
    rcases mem_introduces h with h | ⟨part, hpart, h⟩
    · rw [Shape.idents_map] at h
      rw [n.names_eq]
      exact List.mem_append_left _ h
    · rw [Shape.toList_map] at hpart
      obtain ⟨c, hc, rfl⟩ := List.mem_map.mp hpart
      exact Node.names_subset hc (h.elim (ih c hc) name_mem_of_ahead?)

theorem name_mem_of_mem_introducedBy (h : d ∈ introducedBy ns) : d.name ∈ ns.flatMap Node.names := by
  obtain ⟨n, hn, h⟩ := List.mem_flatMap.mp h
  exact List.mem_flatMap.mpr ⟨n, hn, name_mem_of_mem_introduced h⟩

theorem name_mem_of_mem_introducedAhead (h : d ∈ introducedAhead ns) : d.name ∈ ns.flatMap Node.names := by
  rcases List.mem_append.mp h with h | h
  · obtain ⟨n, hn, h⟩ := List.mem_filterMap.mp h
    exact List.mem_flatMap.mpr ⟨n, hn, name_mem_of_ahead? h⟩
  · exact name_mem_of_mem_introducedBy h

/-- The scope that a node opens is filled by names written below the node. -/
theorem name_mem_of_opened? {contents : List Introduction} (h : opened? n = some contents)
    (hd : d ∈ contents) : d.name ∈ n.names := by
  have inside {ms : List Node} (hsub : ms ⊆ n.shape.toList) (hname : d.name ∈ ms.flatMap Node.names) :
      d.name ∈ n.names := by
    obtain ⟨c, hc, hname⟩ := List.mem_flatMap.mp hname
    exact Node.names_subset (hsub hc) hname
  unfold opened? at h
  split at h
  -- the members of a struct and the statements of a block can be used before they are declared
  case h_3 =>
    rename_i shape
    cases h
    rcases List.mem_append.mp hd with hd | hd
    · exact inside (by simp [shape, Shape.toList]) (name_mem_of_mem_introducedBy hd)
    · exact inside (by simp [shape, Shape.toList]) (name_mem_of_mem_introducedAhead hd)
  case h_7 =>
    rename_i shape
    cases h
    exact inside (by simp [shape, Shape.toList]) (name_mem_of_mem_introducedAhead hd)
  -- a conditional or a loop opens a scope only for a variable in its condition
  case h_8 | h_9 =>
    rename_i shape
    split at h
    · cases h
      exact inside (by simp [shape, Shape.toList]) (name_mem_of_mem_introducedBy hd)
    · cases h
  case h_11 => cases h
  all_goals
    rename_i shape
    cases h
    exact inside (by simp [shape, Shape.toList]) (name_mem_of_mem_introducedBy hd)

/-- Whatever is declared in a scope of a program is declared by a name written in the program. -/
theorem name_mem_of_scopeContents {p : Program} {contents : List Introduction} (h : contents ∈ scopeContents p)
    (hd : d ∈ contents) : d.name ∈ p.items.flatMap Node.names := by
  rcases List.mem_cons.mp h with rfl | h
  · exact name_mem_of_mem_introducedAhead hd
  · obtain ⟨n, hn, hopened⟩ := List.mem_filterMap.mp h
    obtain ⟨item, hitem, hn⟩ := List.mem_flatMap.mp hn
    exact List.mem_flatMap.mpr
      ⟨item, hitem, Node.names_subset_of_mem_preorder hn (name_mem_of_opened? hopened hd)⟩

theorem mem_of_mem_redefinitions {scope : List Introduction} {p : Introduction × Introduction}
    (h : p ∈ redefinitions scope) : p.1 ∈ scope ∧ p.2 ∈ scope := by
  obtain ⟨name, -, h⟩ := List.mem_flatMap.mp h
  unfold repeats at h
  split at h
  · cases h
  · rename_i first others all
    have declared {d : Introduction} (hd : d ∈ first :: others) : d ∈ scope := by
      rw [← all] at hd
      exact List.mem_of_mem_filter hd
    obtain ⟨other, hother, rfl⟩ := List.mem_map.mp h
    exact ⟨declared List.mem_cons_self, declared (List.mem_cons_of_mem _ hother)⟩

end Lexical

/-! ### What is found -/

/-- The nodes of a program and their names lie in the area. -/
def Program.Located (area : Area) (p : Program) : Prop :=
  ∀ n ∈ p.items.flatMap Node.preorder, n.Located area

theorem Program.Located.names {p : Program} (h : p.Located area) :
    ∀ name ∈ p.items.flatMap Node.names, name.range ∈ area := by
  intro name hname
  obtain ⟨item, hitem, hname⟩ := List.mem_flatMap.mp hname
  obtain ⟨n, hn, hname⟩ := List.mem_flatMap.mp hname
  exact (h n (List.mem_flatMap.mpr ⟨item, hitem, hn⟩)).names name hname

/-- What is found lies in the area. -/
structure Finding.Within (area : Area) (f : Finding) : Prop where
  place : ∀ r ∈ f.place, r ∈ area
  related : ∀ r ∈ f.related, r ∈ area

theorem BindError.labels_toDiagnostic (e : BindError) :
    e.toDiagnostic.labels = (e.range.map (⟨·, .primary, some e.cause.label⟩)).toList ++
      (e.cause.related?.map fun place => ⟨place.1, .secondary, some place.2⟩).toList := by
  rw [toDiagnostic, Diagnostic.labels_withHelp?]
  cases e.range <;> cases e.cause.related? <;> rfl

/-- A binding error marks nothing but what it finds. -/
theorem BindError.within_toDiagnostic {e : BindError} (h : e.toDiagnostic.finding.Within area) :
    e.toDiagnostic.Within area := by
  have labels := e.labels_toDiagnostic
  intro label hlabel
  rcases List.mem_append.mp (labels ▸ hlabel) with primary | secondary
  · obtain ⟨r, hr, rfl⟩ := Option.map_eq_some_iff.mp (Option.mem_toList.mp primary)
    refine h.place r ?_
    show e.toDiagnostic.primaryRange? = some r
    rw [Diagnostic.primaryRange?, labels, hr]
    rfl
  · obtain ⟨place, hplace, rfl⟩ := Option.map_eq_some_iff.mp (Option.mem_toList.mp secondary)
    exact h.related _ (List.mem_map_of_mem (List.mem_filter.mpr ⟨hlabel, rfl⟩))

theorem BindCause.finding_within {cause : BindCause} {range : Range} (h : range ∈ area)
    (hrelated : cause.related? = none) : (cause.finding range).Within area := by
  refine ⟨fun _ hr => Option.some.inj hr ▸ h, ?_⟩
  rw [finding, hrelated]
  exact List.forall_mem_nil _

theorem Shape.related?_of_jumpCause? {α : Type} {shape : Shape α} {cause : BindCause}
    (h : shape.jumpCause? = some cause) : cause.related? = none := by
  unfold jumpCause? at h
  split at h <;> cases h <;> rfl

namespace Lexical

theorem complaints_within {standing : Standing} {n : Node} (h : n.Located area) :
    ∀ f ∈ complaints standing n, f.Within area := by
  intro f hf
  unfold complaints fault? at hf
  split at hf
  · cases hf
  rw [Option.mem_toList] at hf
  split at hf
  · split at hf
    · cases hf
      exact BindCause.finding_within h.range rfl
    · cases hf
  · rename_i shape
    cases hf
    refine BindCause.finding_within (h.names _ ?_) rfl
    rw [shape]
    exact List.mem_cons_self
  · obtain ⟨cause, hcause, rfl⟩ := Option.map_eq_some_iff.mp hf
    exact BindCause.finding_within h.range (Shape.related?_of_jumpCause? hcause)

theorem redefinition_within {p : Introduction × Introduction} (first : p.1.name.range ∈ area)
    (again : p.2.name.range ∈ area) : (redefinition p).Within area :=
  ⟨fun _ hr => Option.some.inj hr ▸ again, List.forall_mem_singleton.mpr first⟩

/-- What is found wrong with a program lies where its nodes and names do. -/
theorem findings_within {p : Program} (h : p.Located area) :
    ∀ f ∈ complaintsIn p ++ redefinitionsIn p, f.Within area := by
  rw [List.forall_mem_append]
  constructor
  · intro f hf
    obtain ⟨q, hq, hf⟩ := List.mem_flatMap.mp hf
    have hnode : q.node ∈ p.items.flatMap Node.preorder := by
      rw [← map_places]
      exact List.mem_map_of_mem hq
    exact complaints_within (h q.node hnode) f hf
  · intro f hf
    obtain ⟨scope, hscope, hf⟩ := List.mem_flatMap.mp hf
    obtain ⟨again, hagain, rfl⟩ := List.mem_map.mp hf
    obtain ⟨hfirst, hagain⟩ := mem_of_mem_redefinitions hagain
    exact redefinition_within (h.names _ (name_mem_of_scopeContents hscope hfirst))
      (h.names _ (name_mem_of_scopeContents hscope hagain))

/-! ### What is bound -/

/-- Binding a node leaves it and its names where they are. -/
theorem Relinks.located {standing : Standing} {n n' : Node} (h : Relinks standing n n') (hn : n.Located area) :
    n'.Located area := by
  obtain ⟨pairs, before, after, -, range, -, -⟩ := h
  refine ⟨range ▸ hn.range, ?_⟩
  have hnames := hn.names
  rw [before, Shape.idents_map] at hnames
  rw [after, Shape.idents_map]
  exact hnames

end Lexical

open Lexical

/-- A program whose items lie in the area lies there also when it has been bound. -/
theorem bind_located {p : Program} (h : ∀ n ∈ p.items, n.Throughout (Node.Located area)) (log : Log) :
    (bind p log).1.Located area := by
  obtain ⟨pairs, before, after, relinks⟩ := Binder.bind_relinks p log
  intro n' hn'
  rw [after, List.flatMap_map] at hn'
  obtain ⟨pair, hpair, hn'⟩ := List.mem_flatMap.mp hn'
  have item := h pair.1 (by rw [before]; exact List.mem_map_of_mem hpair)
  obtain ⟨standing, n, hn, relinked⟩ := (relinks pair hpair).exists_before item hn'
  exact relinked.located hn.here

/-- What binding adds to a log lies in the area of the program. -/
theorem bind_within {p : Program} {log : Log} (hmembers : ∀ n ∈ p.items, n.ProperMembers)
    (hlinks : ∀ n ∈ p.items, n.Throughout fun n => n.resolved = none)
    (hitems : ∀ n ∈ p.items, n.Throughout (Node.Located area)) (hlog : ∀ d ∈ log.toList, d.Within area) :
    ∀ d ∈ (bind p log).2.1.toList, d.Within area := by
  obtain ⟨-, new, happend, -, -, hperm, hkinds⟩ := bind_tells log hmembers hlinks
  rw [happend, Log.toList_append, List.forall_mem_append]
  refine ⟨hlog, fun d hd => ?_⟩
  have hfound := findings_within (bind_located hitems log) d.finding
    (hperm.mem_iff.mp (List.mem_map_of_mem hd))
  obtain ⟨e, rfl⟩ := hkinds d hd
  exact BindError.within_toDiagnostic hfound

end BraceLang
