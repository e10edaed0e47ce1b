import BraceLang.Token
import Mathlib.Data.List.Basic

/-! Counting braces: how many are open behind a sequence of tokens (`Kind.level?`). That there is a
    level at all says that no brace is closed before it is opened, and the level itself says how many
    more braces are opened than closed. -/

namespace BraceLang.Kind

/-- The number of braces open behind tokens of these kinds, `depth` being open before them; nothing if a
    brace is closed that was not opened. -/
def level? (depth : Nat) : List Kind → Option Nat
  | [] => some depth
  | .lBrace :: ks => level? (depth + 1) ks
  | .rBrace :: ks =>
    match depth with
    | 0 => none
    | depth + 1 => level? depth ks
  | _ :: ks => level? depth ks

variable {depth level : Nat} {k : Kind} {ks ls : List Kind}

@[simp] theorem level?_nil : level? depth [] = some depth := rfl

theorem level?_cons : level? depth (k :: ks) = (level? depth [k]).bind (level? · ks) := by
  cases k
  case rBrace => cases depth <;> rfl
  all_goals rfl

theorem level?_append : level? depth (ks ++ ls) = (level? depth ks).bind (level? · ls) := by
  induction ks generalizing depth with
  | nil => rfl
  | cons k ks ih =>
    calc level? depth (k :: (ks ++ ls))
        = (level? depth [k]).bind (level? · (ks ++ ls)) := level?_cons
      _ = (level? depth [k]).bind fun middle => (level? middle ks).bind (level? · ls) := by simp only [ih]
      _ = (level? depth (k :: ks)).bind (level? · ls) := by rw [← Option.bind_assoc, ← level?_cons]

/-- A kind that is no brace leaves the level as it is. -/
theorem level?_of_ne (hopen : k ≠ .lBrace) (hclose : k ≠ .rBrace) : level? depth [k] = some depth := by
  cases k
  case lBrace => exact absurd rfl hopen
  case rBrace => exact absurd rfl hclose
  all_goals rfl

/-- Braces that are open around everything stay open. -/
theorem level?_add (h : level? depth ks = some level) (n : Nat) : level? (depth + n) ks = some (level + n) := by
  induction ks generalizing depth with
  | nil =>
    cases h
    rfl
  | cons k ks ih =>
    rw [level?_cons] at h ⊢
    obtain ⟨middle, hk, hks⟩ := Option.bind_eq_some_iff.mp h
    have single : level? (depth + n) [k] = some (middle + n) := by
      cases k
      case lBrace =>
        cases hk
        exact congrArg some (Nat.add_right_comm depth n 1)
      case rBrace =>
        cases depth with
        | zero => cases hk
        | succ depth =>
          cases hk
          rw [Nat.add_right_comm]
          rfl
      all_goals
        cases hk
        rfl
    rw [single]
    exact ih hks

theorem level?_count (h : level? depth ks = some level) :
    level + ks.count .rBrace = depth + ks.count .lBrace := by
  induction ks generalizing depth with
  | nil =>
    cases h
    rfl
  | cons k ks ih =>
    rw [level?_cons] at h
    obtain ⟨middle, hk, hks⟩ := Option.bind_eq_some_iff.mp h
    have others := ih hks
    have single : middle + [k].count .rBrace = depth + [k].count .lBrace := by
      cases k
      case rBrace =>
        cases depth with
        | zero => cases hk
        | succ depth =>
          cases hk
          rfl
      all_goals
        cases hk
        rfl
    rw [← List.singleton_append, List.count_append, List.count_append]
    omega

/-- In every prefix, braces are opened before they are closed. -/
theorem count_le_of_prefix (h : level? 0 ks = some level) (hls : ls <+: ks) :
    ls.count .rBrace ≤ ls.count .lBrace := by
  obtain ⟨more, rfl⟩ := hls
  rw [level?_append] at h
  obtain ⟨middle, hls, -⟩ := Option.bind_eq_some_iff.mp h
  have counts := level?_count hls
  omega

theorem count_eq_of_level? (h : level? 0 ks = some 0) : ks.count .lBrace = ks.count .rBrace := by
  have counts := level?_count h
  omega

end BraceLang.Kind
