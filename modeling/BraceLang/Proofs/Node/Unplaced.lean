import BraceLang.Proofs.Node.Skeleton
import BraceLang.Token
import Mathlib.Logic.Basic

/-! Values that say the same wherever they stand. Ranges are forgotten and everything else is kept
    (`Ranged.unplaced`), in trees and in what they are made from, so that two such values are the same up to
    ranges if nothing is left to tell them apart (`Same`). -/

namespace BraceLang

/-- The tree with all ranges forgotten. -/
def Node.unplaced (n : Node) : Node :=
  n.fold fun n parts => ⟨n.id, .nowhere, n.resolved, (parts.map (·.2)).unplaced⟩

theorem Node.unplaced_eq (n : Node) :
    n.unplaced = ⟨n.id, .nowhere, n.resolved, (n.shape.map unplaced).unplaced⟩ := by
  rw [unplaced, fold_eq, Shape.map_map]
  rfl

/-- Values in which ranges may occur. -/
class Ranged (α : Type) where
  /-- The value with its ranges forgotten. -/
  unplaced : α → α

open Ranged (unplaced)

variable {α β : Type}

instance : Ranged Range := ⟨fun _ => .nowhere⟩
instance : Ranged Ident := ⟨Ident.unplaced⟩
instance : Ranged Pattern := ⟨Pattern.unplaced⟩
instance : Ranged Node := ⟨Node.unplaced⟩
instance : Ranged (Shape Node) := ⟨fun shape => (shape.map Node.unplaced).unplaced⟩
instance : Ranged Token := ⟨fun t => { t with range := .nowhere }⟩
instance : Ranged Kind := ⟨id⟩
instance : Ranged Bool := ⟨id⟩
instance : Ranged Unit := ⟨id⟩
instance : Ranged Modifiers := ⟨id⟩
instance [Ranged α] : Ranged (Option α) := ⟨Option.map unplaced⟩
instance [Ranged α] : Ranged (List α) := ⟨List.map unplaced⟩
instance [Ranged α] : Ranged (Array α) := ⟨Array.map unplaced⟩
instance [Ranged α] [Ranged β] : Ranged (α × β) := ⟨Prod.map unplaced unplaced⟩

instance [Ranged α] : Ranged (ForInStep α) where
  unplaced
    | .done a => .done (unplaced a)
    | .yield a => .yield (unplaced a)

/-! ### Constructs with several parts -/

section Congr
variable {γ δ ε ζ : Type} {a a' : α} {b b' : β} {c c' : γ} {d d' : δ} {e e' : ε}

theorem congrArg₃ (f : α → β → γ → δ) (ha : a = a') (hb : b = b') (hc : c = c') : f a b c = f a' b' c' :=
  congr (congrArg₂ f ha hb) hc

theorem congrArg₄ (f : α → β → γ → δ → ε) (ha : a = a') (hb : b = b') (hc : c = c') (hd : d = d') :
    f a b c d = f a' b' c' d' := congr (congrArg₃ f ha hb hc) hd

theorem congrArg₅ (f : α → β → γ → δ → ε → ζ) (ha : a = a') (hb : b = b') (hc : c = c') (hd : d = d')
    (he : e = e') : f a b c d e = f a' b' c' d' e' := congr (congrArg₄ f ha hb hc hd) he

end Congr

/-- Two values say the same apart from ranges. -/
def Same [Ranged α] (a b : α) : Prop := unplaced a = unplaced b

namespace Same

variable [Ranged α] [Ranged β] {a b : α}

theorem refl (a : α) : Same a a := rfl

theorem node {shape shape' : Shape Node} (h : Same shape shape') (id : NodeId) (range range' : Range) :
    Same (⟨id, range, none, shape⟩ : Node) ⟨id, range', none, shape'⟩ := by
  show Node.unplaced _ = Node.unplaced _
  rw [Node.unplaced_eq, Node.unplaced_eq]
  exact congrArg (Node.mk id .nowhere none) h

/-! ### Pairs, lists and arrays -/

theorem snd {x y : α × β} (h : Same x y) : Same x.2 y.2 := (Prod.ext_iff.mp h).2

theorem append {as bs as' bs' : List α} (h : Same as bs) (h' : Same as' bs') :
    Same (as ++ as') (bs ++ bs') := by
  show List.map _ _ = List.map _ _
  rw [List.map_append, List.map_append]
  exact congrArg₂ _ h h'

theorem push {as bs : Array α} (hs : Same as bs) (h : Same a b) : Same (as.push a) (bs.push b) := by
  show Array.map _ _ = Array.map _ _
  rw [Array.map_push, Array.map_push]
  exact congrArg₂ Array.push hs h

theorem singleton (h : Same a b) : Same #[a] #[b] := push (.refl #[]) h

theorem toList {as bs : Array α} (hs : Same as bs) : Same as.toList bs.toList := by
  show List.map _ _ = List.map _ _
  rw [← Array.toList_map, ← Array.toList_map]
  exact congrArg Array.toList hs

theorem isEmpty_eq {as bs : List α} (h : Same as bs) : as.isEmpty = bs.isEmpty := by
  have h : (as.map unplaced).isEmpty = (bs.map unplaced).isEmpty := congrArg List.isEmpty h
  rwa [List.isEmpty_map, List.isEmpty_map] at h

theorem isNone_eq {a b : Option α} (h : Same a b) : a.isNone = b.isNone := by
  have h : (a.map unplaced).isNone = (b.map unplaced).isNone := congrArg Option.isNone h
  rwa [Option.isNone_map, Option.isNone_map] at h

/-! ### Tokens -/

section Tokens
variable {t u : Token}

theorem kind_eq (h : Same t u) : t.kind = u.kind := by
  have h : (unplaced t).kind = (unplaced u).kind := congrArg Token.kind (show unplaced t = unplaced u from h)
  exact h

theorem payload_eq (h : Same t u) : t.payload = u.payload := by
  have h : (unplaced t).payload = (unplaced u).payload :=
    congrArg Token.payload (show unplaced t = unplaced u from h)
  exact h

theorem text_eq (h : Same t u) : t.text = u.text := by rw [Token.text, Token.text, h.payload_eq]

theorem int_eq (h : Same t u) : t.int = u.int := by rw [Token.int, Token.int, h.payload_eq]

end Tokens

end Same

end BraceLang
