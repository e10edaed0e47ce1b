import BraceLang.Proofs.Binding.Bound
import Mathlib.Data.List.Dedup
import Mathlib.Data.List.Perm.Lattice

/-! Everything that is declared in each scope of a program, with the places where the names are written,
    and what is declared there again: of the declarations of one name in one scope, all but the first.

    Main statements: the declarations are those of lexical scoping (`map_introduced`), and a declaration
    made after the others of its scope repeats the first of its name or nothing
    (`redefinitions_concat`). -/

namespace BraceLang.Lexical

/-- A name where it is declared, and the node that declares it. -/
structure Introduction where
  name : Ident
  decl : NodeId
deriving DecidableEq

namespace Introduction

def text (d : Introduction) : String := d.name.text

def declaration (d : Introduction) : Declaration := ⟨d.text, d.decl⟩

end Introduction

/-! ### What is declared in a scope -/

/-- What a function or type declares ahead of its place. -/
def ahead? (n : Node) : Option Introduction :=
  match n.shape with
  | .func _ _ _ name .. | .struct _ _ name .. | .enum _ _ name .. | .union _ _ name ..
  | .typeAlias _ _ name .. => some ⟨name, n.id⟩
  | _ => none

/-- What a node adds to the scope it stands in, given what its parts add. -/
def introduces (n : Node) (parts : Shape (Node × List Introduction)) : List Introduction :=
  match parts with
  | .var _ _ _ pattern _ _ => parts.toList.flatMap (·.2) ++ pattern.names.map (⟨·, n.id⟩)
  | .param name _ _ | .generic name _ | .enumOption _ name _ | .field _ _ name _ _ =>
    parts.toList.flatMap (·.2) ++ [⟨name, n.id⟩]
  | .func attrs .. | .struct attrs .. | .typeAlias attrs .. | .union attrs .. => attrs.flatMap (·.2)
  | .enum attrs _ _ base _ => (attrs ++ base.toList).flatMap (·.2)
  | .closure .. | .block _ | .forLoop .. => []
  | .ifElse condition .. | .whileLoop condition _ =>
    if bindsVariable condition.1 then [] else parts.toList.flatMap (·.2)
  | .deferred stmt => (ahead? stmt.1).toList ++ stmt.2
  | parts => parts.toList.flatMap (·.2)

/-- What a tree adds to the scope it stands in. -/
def introduced (n : Node) : List Introduction := n.fold introduces

/-- What is declared by some nodes one after another. -/
def introducedBy (ns : List Node) : List Introduction := ns.flatMap introduced

/-- What is declared by a list in which functions and types can be used before they are declared. -/
def introducedAhead (ns : List Node) : List Introduction := ns.filterMap ahead? ++ introducedBy ns

/-- All that is declared in the scope that a node opens, if it opens one. -/
def opened? (n : Node) : Option (List Introduction) :=
  match n.shape with
  | .func _ _ _ _ _ generics signature body =>
    some (introducedBy (generics ++ signature :: body.toList))
  | .closure _ signature body => some (introducedBy [signature, body])
  | .struct _ _ _ generics members => some (introducedBy generics ++ introducedAhead members)
  | .enum _ _ _ _ options => some (introducedBy options)
  | .typeAlias _ _ _ generics type => some (introducedBy (generics ++ [type]))
  | .union _ _ _ generics members => some (introducedBy (generics ++ members))
  | .block statements => some (introducedAhead statements)
  | .ifElse condition thenBranch elseBranch =>
    if bindsVariable condition then some (introducedBy (condition :: thenBranch :: elseBranch.toList))
    else none
  | .whileLoop condition body =>
    if bindsVariable condition then some (introducedBy [condition, body]) else none
  | .forLoop init condition step body =>
    some (introducedBy (init.toList ++ condition.toList ++ step.toList ++ [body]))
  | _ => none

/-- What is declared in each scope of a program: in the one around its items, and in those that its nodes
    open. -/
def scopeContents (p : Program) : List (List Introduction) :=
  introducedAhead p.items :: (p.items.flatMap Node.preorder).filterMap opened?

theorem introduced_eq (n : Node) :
    introduced n = introduces n (n.shape.map fun x => (x, introduced x)) :=
  n.fold_eq introduces

@[simp] theorem introducedBy_nil : introducedBy [] = [] := rfl

@[simp] theorem introducedBy_cons (n : Node) (ns : List Node) :
    introducedBy (n :: ns) = introduced n ++ introducedBy ns := rfl

@[simp] theorem introducedBy_append (ms ns : List Node) :
    introducedBy (ms ++ ns) = introducedBy ms ++ introducedBy ns := List.flatMap_append

/-! ### The declarations are those of lexical scoping -/

theorem map_ahead? (n : Node) : (ahead? n).map (·.declaration) = hoisted? n := by
  unfold ahead? hoisted?
  cases n.shape <;> rfl

theorem map_introduces (n : Node) (parts : Shape (Node × List Introduction)) :
    (introduces n parts).map (·.declaration) =
      leaves n (parts.map fun part => (part.1, part.2.map (·.declaration))) := by
  cases parts
  case ifElse condition _ _ | whileLoop condition _ =>
    cases hc : bindsVariable condition.1 <;>
      simp [introduces, leaves, Shape.map, Shape.toList, List.map_flatMap, List.flatMap_map,
        Option.toList_map, hc]
  all_goals
    simp [introduces, leaves, Shape.map, Shape.toList, List.map_flatMap, List.flatMap_map, ← map_ahead?,
      Option.toList_map, Introduction.declaration, Introduction.text, Function.comp_def]

/-- What a tree adds to a scope, without places, is what it leaves there. -/
theorem map_introduced (n : Node) : (introduced n).map (·.declaration) = declares n := by
  induction n using Node.induct with
  | step n ih =>
    rw [introduced_eq, map_introduces, Shape.map_map, declares_eq]
    congr 1
    exact Shape.map_congr fun x hx => by rw [Function.comp_apply, ih x hx]

/-! ### Links play no part -/

theorem ahead?_unlinked (n : Node) : ahead? n.unlinked = ahead? n := by
  unfold ahead?
  rw [Node.id_unlinked, Node.shape_unlinked]
  cases n.shape <;> rfl

theorem introduces_unlinked (n : Node) (parts : Shape (Node × List Introduction)) :
    introduces n.unlinked (parts.map fun part => (part.1.unlinked, part.2)) = introduces n parts := by
  cases parts <;>
    simp [Shape.map, Shape.toList, introduces, List.flatMap_map, ahead?_unlinked, bindsVariable_unlinked,
      Option.toList_map]

theorem introduced_unlinked (n : Node) : introduced n.unlinked = introduced n := by
  induction n using Node.induct with
  | step n ih =>
    have parts : n.unlinked.shape.map (fun x => (x, introduced x)) =
        (n.shape.map fun x => (x, introduced x)).map fun part => (part.1.unlinked, part.2) := by
      rw [Node.shape_unlinked, Shape.map_map, Shape.map_map]
      refine Shape.map_congr fun x hx => ?_
      show (x.unlinked, introduced x.unlinked) = (x.unlinked, introduced x)
      rw [ih x hx]
    rw [introduced_eq, parts, introduces_unlinked, ← introduced_eq]

theorem introducedBy_unlinked (ns : List Node) :
    introducedBy (ns.map Node.unlinked) = introducedBy ns := by
  rw [introducedBy, List.flatMap_map]
  exact List.flatMap_congr fun n _ => introduced_unlinked n

theorem introducedAhead_unlinked (ns : List Node) :
    introducedAhead (ns.map Node.unlinked) = introducedAhead ns := by
  rw [introducedAhead, introducedBy_unlinked, List.filterMap_map]
  congr 2
  exact funext ahead?_unlinked

theorem opened?_unlinked (n : Node) : opened? n.unlinked = opened? n := by
  have option (x : Option Node) : introducedBy (x.map Node.unlinked).toList = introducedBy x.toList := by
    rw [Option.toList_map, introducedBy_unlinked]
  unfold opened?
  rw [Node.shape_unlinked]
  cases n.shape <;>
    simp [Shape.map, introducedBy_unlinked, introducedAhead_unlinked, introduced_unlinked, option,
      bindsVariable_unlinked]

theorem opened?_congr {m n : Node} (h : m.unlinked = n.unlinked) : opened? m = opened? n := by
  rw [← opened?_unlinked, h, opened?_unlinked]

/-! ### What is declared again -/

def firstOf? (scope : List Introduction) (name : String) : Option Introduction :=
  scope.find? (·.text == name)

def declarationsOf (scope : List Introduction) (name : String) : List Introduction :=
  scope.filter (·.text == name)

/-- The declarations of a name but the first, each with the first. -/
def repeats (scope : List Introduction) (name : String) : List (Introduction × Introduction) :=
  match declarationsOf scope name with
  | [] => []
  | first :: others => others.map (first, ·)

/-- What is declared again in a scope, name by name, each with the first declaration of its name. -/
def redefinitions (scope : List Introduction) : List (Introduction × Introduction) :=
  (scope.map (·.text)).dedup.flatMap (repeats scope)

variable {scope : List Introduction} {name : String} {d first : Introduction}

theorem head?_declarationsOf : (declarationsOf scope name).head? = firstOf? scope name :=
  List.head?_filter

theorem firstOf?_eq_none_iff : firstOf? scope name = none ↔ name ∉ scope.map (·.text) := by
  simp [firstOf?]

/-- There is one repetition less than there are declarations. -/
theorem length_repeats : (repeats scope name).length = (scope.map (·.text)).count name - 1 := by
  have hcount : (scope.map (·.text)).count name = (declarationsOf scope name).length := by
    rw [List.count_eq_countP, List.countP_map, List.countP_eq_length_filter]
    rfl
  rw [hcount, repeats]
  cases declarationsOf scope name <;> simp

theorem fst_of_mem_repeats {p : Introduction × Introduction} (h : p ∈ repeats scope name) :
    firstOf? scope name = some p.1 := by
  rw [← head?_declarationsOf]
  unfold repeats at h
  split at h
  · cases h
  · rename_i first others heq
    obtain ⟨d, -, rfl⟩ := List.mem_map.mp h
    rw [heq]
    rfl

theorem first_of_firstOf? (h : firstOf? scope name = some first) :
    First name first.decl (scope.map (·.declaration)) := by
  rw [← first?_eq_some_iff, first?, List.find?_map, Option.map_map]
  exact Option.map_eq_some_iff.mpr ⟨first, h, rfl⟩

theorem repeats_concat_ne (h : d.text ≠ name) : repeats (scope ++ [d]) name = repeats scope name := by
  have hsame : declarationsOf (scope ++ [d]) name = declarationsOf scope name := by
    simp [declarationsOf, h]
  rw [repeats, hsame, repeats]

theorem repeats_concat (scope : List Introduction) (d : Introduction) :
    repeats (scope ++ [d]) d.text =
      repeats scope d.text ++ (firstOf? scope d.text).toList.map (·, d) := by
  have hmore : declarationsOf (scope ++ [d]) d.text = declarationsOf scope d.text ++ [d] := by
    simp [declarationsOf]
  rw [repeats, hmore, repeats, ← head?_declarationsOf]
  cases declarationsOf scope d.text <;> simp

/-- A declaration made after the others of its scope repeats the first of its name, if there is one. -/
theorem redefinitions_concat (scope : List Introduction) (d : Introduction) :
    (redefinitions (scope ++ [d])).Perm
      (redefinitions scope ++ (firstOf? scope d.text).toList.map (·, d)) := by
  unfold redefinitions
  rw [List.map_append, List.map_singleton]
  -- The names of the longer scope are the new one and the others, and those keep their repetitions.
  generalize hnames : (scope.map (·.text)).dedup = names
  have hnodup : names.Nodup := hnames ▸ List.nodup_dedup _
  have others : (names.erase d.text).flatMap (repeats (scope ++ [d])) =
      (names.erase d.text).flatMap (repeats scope) :=
    List.flatMap_congr fun x hx => repeats_concat_ne (hnodup.mem_erase_iff.mp hx).1.symm
  have all : (scope.map (·.text) ++ [d.text]).dedup.Perm (d.text :: names.erase d.text) := by
    refine (List.perm_ext_iff_of_nodup (List.nodup_dedup _) ?_).mpr fun x => ?_
    · exact List.nodup_cons.mpr ⟨hnodup.not_mem_erase, hnodup.erase _⟩
    · rw [List.mem_dedup, List.mem_append, List.mem_singleton, List.mem_cons, hnodup.mem_erase_iff,
        ← hnames, List.mem_dedup]
      tauto
  refine (all.flatMap_right _).trans ?_
  rw [List.flatMap_cons, others, repeats_concat]
  by_cases hmem : d.text ∈ names
  · have split := (List.perm_cons_erase hmem).flatMap_right (repeats scope)
    rw [List.flatMap_cons] at split
    refine List.Perm.trans ?_ (split.symm.append_right _)
    rw [List.append_assoc, List.append_assoc]
    exact (List.perm_append_comm).append_left _
  · have hnone : firstOf? scope d.text = none := by
      rw [firstOf?_eq_none_iff, ← List.mem_dedup, hnames]
      exact hmem
    have hempty : repeats scope d.text = [] := by
      rw [repeats]
      rw [← head?_declarationsOf, List.head?_eq_none_iff] at hnone
      rw [hnone]
    rw [hnone, hempty, List.erase_of_not_mem hmem]
    simp

end BraceLang.Lexical
