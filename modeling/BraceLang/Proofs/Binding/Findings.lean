import BraceLang.Binding.Error
import BraceLang.Proofs.Binding.Introductions
import BraceLang.Proofs.Binding.Resolution
import BraceLang.Proofs.Node.Skeleton

/-! What there is to find in a bound program: a use of a name that is linked to nothing, a jump that has
    nothing to leave, and a name that is declared again in its scope. Each is a `Finding`, which is what a
    diagnostic says but for its help and the words at its labels. -/

namespace BraceLang

/-- What a diagnostic says: how severe it is, its code and message, where the problem is, and the places
    related to it. -/
structure Finding where
  severity : Severity
  code : Option String
  message : String
  place : Option Range
  related : List Range
deriving DecidableEq

def Diagnostic.finding (d : Diagnostic) : Finding :=
  ⟨d.severity, d.code, d.message, d.primaryRange?, d.secondaryRanges⟩

/-- What is to be said about a cause at a range. -/
def BindCause.finding (cause : BindCause) (range : Range) : Finding :=
  ⟨.error, some cause.code.text, cause.message, some range, (cause.related?.map (·.1)).toList⟩

theorem BindError.finding_toDiagnostic (cause : BindCause) (range : Range) :
    (BindError.mk cause (some range)).toDiagnostic.finding = cause.finding range := by
  cases cause with
  | undefined name suggestion => cases suggestion <;> rfl
  | redefinition name first => cases first <;> rfl
  | breakOutsideLoop => rfl
  | continueOutsideLoop => rfl
  | returnOutsideFunction => rfl

/-- What is wrong with a jump that has nothing to leave. -/
def Shape.jumpCause? {α : Type} : Shape α → Option BindCause
  | returned _ => some .returnOutsideFunction
  | broken => some .breakOutsideLoop
  | continued => some .continueOutsideLoop
  | _ => none

/-- Whether a construct is a bare name or a type's path. -/
def Shape.isNaming {α : Type} : Shape α → Bool
  | name _ | named .. => true
  | _ => false

namespace Lexical

/-! ### What is wrong with a node -/

/-- What is wrong with a node if it is not linked. -/
def fault? (standing : Standing) (n : Node) : Option Finding :=
  match n.shape with
  -- A name after a dot, of a macro or of an attribute is no use.
  | .name text => if standing = .plain then some ((BindCause.undefined text none).finding n.range) else none
  | .named head _ _ => some ((BindCause.undefined head.text none).finding head.range)
  | shape => shape.jumpCause?.map (·.finding n.range)

def complaints (standing : Standing) (n : Node) : List Finding :=
  if n.resolved.isSome then [] else (fault? standing n).toList

/-- What is wrong with a declaration that repeats a first one. -/
def redefinition (p : Introduction × Introduction) : Finding :=
  (BindCause.redefinition p.2.text (some p.1.name.range)).finding p.2.name.range

theorem complaints_of_fault?_eq_none {standing : Standing} {n : Node} (h : fault? standing n = none) :
    complaints standing n = [] := by
  unfold complaints
  rw [h, Option.toList_none, ite_self]

/-- What has to be linked are the uses of names and the jumps. -/
theorem isSome_fault?_iff (p : Place) :
    (fault? p.standing p.node).isSome ↔ p.use?.isSome ∨ p.node.shape.jumpCause?.isSome := by
  unfold fault? Place.use?
  cases p.node.shape <;> simp [Shape.jumpCause?]

/-! ### All places -/

namespace Place

theorem node_mem_children {p q : Place} (h : q ∈ p.parts) : q.node ∈ p.node.children :=
  p.map_parts ▸ List.mem_map_of_mem h

/-- The place and all places below it, in source order. -/
def all (p : Place) : List Place := p :: p.parts.attach.flatMap fun q => q.1.all
termination_by p.node.height
decreasing_by exact Node.height_lt_of_mem_children (node_mem_children q.2)

theorem all_eq (p : Place) : p.all = p :: p.parts.flatMap all := by
  rw [all, ← List.flatMap_map, List.attach_map_subtype_val]

/-- What holds of a place whenever it holds of its parts holds of every place. -/
theorem induct {P : Place → Prop} (step : ∀ p, (∀ q ∈ p.parts, P q) → P p) (p : Place) : P p := by
  obtain ⟨n, hn⟩ : ∃ n, p.node = n := ⟨_, rfl⟩
  induction n using Node.induct generalizing p with
  | step n ih =>
    refine step p fun q hq => ih q.node ?_ q rfl
    rw [← hn]
    exact node_mem_children hq

theorem mem_all_iff (p : Place) : ∀ q, q ∈ p.all ↔ p.Reaches q := by
  induction p using Place.induct with
  | step p ih =>
    intro q
    rw [all_eq, List.mem_cons, List.mem_flatMap]
    constructor
    · rintro (rfl | ⟨part, hpart, hq⟩)
      · exact .refl q
      · exact .part hpart ((ih part hpart q).mp hq)
    · intro h
      cases h with
      | refl => exact .inl rfl
      | part hpart hrest => exact .inr ⟨_, hpart, (ih _ hpart q).mpr hrest⟩

theorem map_all (p : Place) : p.all.map (·.node) = p.node.preorder := by
  induction p using Place.induct with
  | step p ih =>
    rw [all_eq, List.map_cons, List.map_flatMap, Node.preorder_eq, ← p.map_parts, List.flatMap_map]
    exact congrArg _ (List.flatMap_congr ih)

end Place

def places (p : Program) : List Place := (items p).flatMap Place.all

theorem mem_places_iff {p : Program} {q : Place} : q ∈ places p ↔ IsPlaceOf p q := by
  simp only [places, List.mem_flatMap, Place.mem_all_iff, IsPlaceOf]

/-- There is one place for each node. -/
theorem map_places (p : Program) : (places p).map (·.node) = p.items.flatMap Node.preorder := by
  have hitems : (items p).map (·.node) = p.items := map_inTurn _ _ _
  rw [places, List.map_flatMap, List.flatMap_congr fun q _ => q.map_all, ← List.flatMap_map, hitems]

end Lexical

end BraceLang
