import BraceLang.Proofs.Node.Preorder

/-! Which parts of a construct lie open in it, and which are closed in: by the brackets around a group, a tuple,
    an array, a template or a block, or by those around a list of arguments, parameters or sizes. A node is bare
    if it holds no struct literal but closed in, and a header is in order if its condition is bare. -/

namespace BraceLang

namespace Shape
variable {α β : Type}

/-- The parts that are not closed in. -/
def exposed : Shape α → List α
  | template _ | group _ | tuple _ | array _ | block _ | named .. => []
  | call x _ | index x _ | macroCall x _ | new x _ | arrayType x _ => [x]
  | signature _ x => x.toList
  | shape => shape.toList

def isStructLiteral : Shape α → Bool
  | structLiteral .. => true
  | _ => false

def isVariable : Shape α → Bool
  | var .. => true
  | _ => false

/-- The condition and the body of an `if` or `while`. -/
def header? : Shape α → Option (α × α)
  | ifElse condition body _ | whileLoop condition body => some (condition, body)
  | _ => none

theorem exposed_map (f : α → β) (shape : Shape α) : (shape.map f).exposed = shape.exposed.map f := by
  cases shape <;> simp [map, exposed, toList, Option.toList_map]

theorem mem_toList_of_mem_exposed {shape : Shape α} {x : α} (h : x ∈ shape.exposed) : x ∈ shape.toList := by
  cases shape <;> simp_all [exposed, toList]

end Shape

namespace Node

/-- The node and all nodes below it that are not closed in, parents before their parts. -/
def surface (n : Node) : List Node := n.fold fun n parts => n :: parts.exposed.flatMap (·.2)

theorem surface_eq (n : Node) : n.surface = n :: n.shape.exposed.flatMap surface := by
  rw [surface, fold_eq, Shape.exposed_map, List.flatMap_map]
  rfl

/-- Every struct literal in the node is closed in. -/
def Bare (n : Node) : Prop := ∀ m ∈ n.surface, m.shape.isStructLiteral = false

theorem bare_iff {n : Node} : n.Bare ↔ n.shape.isStructLiteral = false ∧ ∀ c ∈ n.shape.exposed, c.Bare := by
  simp only [Bare]
  rw [surface_eq, List.forall_mem_cons]
  refine and_congr_right fun _ => ⟨fun h c hc m hm => ?_, fun h m hm => ?_⟩
  · exact h m (List.mem_flatMap.mpr ⟨c, hc, hm⟩)
  · obtain ⟨c, hc, hm⟩ := List.mem_flatMap.mp hm
    exact h c hc m hm

/-- If the node has a header, its condition declares variables or is bare. -/
def Headed (n : Node) : Prop :=
  ∀ header ∈ n.shape.header?, header.1.shape.isVariable = false → header.1.Bare

/-- The headers in a node are in order, and the node is bare unless it is free not to be. -/
structure Fit (free : Bool) (n : Node) : Prop where
  headers : n.Throughout Headed
  bare : free = false → n.Bare

theorem Fit.loosen {free : Bool} {n : Node} (h : n.Fit false) : n.Fit free := ⟨h.headers, fun _ => h.bare rfl⟩

theorem Fit.freely {free : Bool} {n : Node} (h : n.Fit free) : n.Fit true := ⟨h.headers, fun h => by cases h⟩

end Node

/-- The nodes are fit. -/
def AllFit (free : Bool) (ns : List Node) : Prop := ∀ n ∈ ns, n.Fit free

namespace AllFit
variable {free : Bool} {n : Node} {ns ms : List Node}

theorem nil : AllFit free [] := List.forall_mem_nil _

theorem cons (hn : n.Fit free) (hns : AllFit free ns) : AllFit free (n :: ns) := List.forall_mem_cons.mpr ⟨hn, hns⟩

theorem one (hn : n.Fit free) : AllFit free [n] := List.forall_mem_singleton.mpr hn

theorem append (hns : AllFit free ns) (hms : AllFit free ms) : AllFit free (ns ++ ms) :=
  List.forall_mem_append.mpr ⟨hns, hms⟩

theorem push {items : Array Node} (h : AllFit free items.toList) (hn : n.Fit free) :
    AllFit free (items.push n).toList := by
  rw [Array.toList_push]
  exact h.append (one hn)

theorem freely (h : AllFit free ns) : AllFit true ns := fun n hn => (h n hn).freely

end AllFit

/-- The construct makes a fit node. -/
structure Shape.Fit (free : Bool) (shape : Shape Node) : Prop where
  header : ∀ header ∈ shape.header?, header.1.shape.isVariable = false → header.1.Bare
  parts : AllFit true shape.toList
  plain : free = false → shape.isStructLiteral = false
  exposed : AllFit free shape.exposed

namespace Shape.Fit
variable {free : Bool} {shape : Shape Node}

/-- A construct with parts that are closed in. -/
theorem enclosing (hheader : shape.header? = none) (hplain : shape.isStructLiteral = false)
    (exposed : AllFit free shape.exposed) (parts : AllFit true shape.toList) : shape.Fit free := by
  refine ⟨?_, parts, fun _ => hplain, exposed⟩
  rw [hheader]
  exact fun _ h => by cases h

/-- A construct all parts of which are as fit as it is. -/
theorem plainly (hheader : shape.header? = none) (hplain : shape.isStructLiteral = false)
    (parts : AllFit free shape.toList) : shape.Fit free :=
  enclosing hheader hplain (fun c hc => parts c (mem_toList_of_mem_exposed hc)) parts.freely

/-- A construct whose header, if it has one, is in order. -/
theorem headed (header : ∀ header ∈ shape.header?, header.1.shape.isVariable = false → header.1.Bare)
    (parts : AllFit true shape.toList) : shape.Fit true :=
  ⟨header, parts, fun h => (by cases h), fun c hc => parts c (mem_toList_of_mem_exposed hc)⟩

/-- A construct without a header that is free to be a struct literal. -/
theorem freely (hheader : shape.header? = none) (parts : AllFit true shape.toList) : shape.Fit true := by
  refine headed ?_ parts
  rw [hheader]
  exact fun _ h => by cases h

theorem node (h : shape.Fit free) {id : NodeId} {range : Range} : Node.Fit free ⟨id, range, none, shape⟩ where
  headers := .mk h.header fun c hc => (h.parts c hc).headers
  bare hfree := Node.bare_iff.mpr ⟨h.plain hfree, fun c hc => (h.exposed c hc).bare hfree⟩

end Shape.Fit

end BraceLang
