import BraceLang.Proofs.Token.Stream
import Mathlib.Logic.Function.Iterate

/-! Calling a lexer again and again. Up to the end of the text its calls give the stream, and from there on
    the end without anything wrong (`Lexer.next_of_ended`). -/

namespace BraceLang

namespace Lexer

/-- The lexer after `n` calls. -/
def afterCalls (lx : Lexer) (n : Nat) : Lexer := (fun lx : Lexer => lx.next.2)^[n] lx

/-- What the call number `n` gives, the first being number 0. -/
def call (lx : Lexer) (n : Nat) : Lexed := (lx.afterCalls n).next.1

/-- What the first `n` calls give. -/
def calls (lx : Lexer) (n : Nat) : List Lexed := (List.range n).map lx.call

variable {lx : Lexer}

theorem call_zero (lx : Lexer) : lx.call 0 = lx.next.1 := rfl

theorem call_succ (lx : Lexer) (n : Nat) : lx.call (n + 1) = lx.next.2.call n := rfl

theorem afterCalls_succ (lx : Lexer) (n : Nat) : lx.afterCalls (n + 1) = (lx.afterCalls n).next.2 :=
  Function.iterate_succ_apply' _ n lx

theorem calls_succ (lx : Lexer) (n : Nat) : lx.calls (n + 1) = lx.calls n ++ [lx.call n] := by
  rw [calls, List.range_succ, List.map_append]
  rfl

/-! ### The end -/

/-- No end waits to be handed out. -/
def Ready (lx : Lexer) : Prop := ∀ t ∈ lx.pending, t.kind ≠ .eof

/-- Nothing is left. -/
structure Ended (lx : Lexer) : Prop where
  pending : lx.pending = []
  ahead : lx.cursor.ahead = []
  hole : lx.hole = none

theorem ready_start (source : Source) : (Lexer.start source).Ready := List.forall_mem_nil _

theorem ready_after {first : Char} {rest : List Char} (ahead : lx.cursor.ahead = first :: rest) :
    (lx.after (lx.scan first rest)).Ready :=
  fun t ht => scan_kind_ne_eof ahead t (List.mem_of_mem_tail ht)

theorem ready_read (h : lx.Ready) (errors : List LexError) : (lx.read errors).2.Ready := by
  fun_induction read lx errors with
  | case1 lx errors ahead lexed rest atEnd =>
    simp only [Lexer.atEnd] at atEnd
    split at atEnd <;> cases atEnd <;> exact h
  | case2 lx errors c rest ahead s tokens ih => exact ih (ready_after ahead)
  | case3 lx errors c rest ahead s token more tokens => exact ready_after ahead

theorem ready_next (h : lx.Ready) : lx.next.2.Ready := by
  unfold next
  split
  · rename_i token pending hpending
    exact fun t ht => h t (hpending ▸ List.mem_cons_of_mem _ ht)
  · exact ready_read h []

theorem next_of_ended (h : lx.Ended) : lx.next = (⟨.bare .eof lx.endRange, []⟩, lx) := by
  rw [next_of_ahead_nil h.pending h.ahead, atEnd, h.hole]

theorem call_of_ended (h : lx.Ended) (n : Nat) : lx.call n = ⟨.bare .eof lx.endRange, []⟩ := by
  induction n with
  | zero => rw [call_zero, next_of_ended h]
  | succ n ih => rw [call_succ, next_of_ended h, ih]

theorem read_of_eof (pending : lx.pending = []) (errors : List LexError)
    (hkind : (lx.read errors).1.token.kind = .eof) :
    (lx.read errors).1.token = .bare .eof lx.endRange ∧ (lx.read errors).2.Ended := by
  fun_induction read lx errors with
  | case1 lx errors ahead lexed rest atEnd =>
    simp only [Lexer.atEnd] at atEnd
    split at atEnd
    · cases atEnd
      cases hkind
    · rename_i hole
      cases atEnd
      exact ⟨rfl, pending, ahead, hole⟩
  | case2 lx errors c rest ahead s tokens ih =>
    have nothing : (lx.after s).pending = [] := by rw [after, tokens, List.tail_nil]
    exact ih nothing hkind
  | case3 lx errors c rest ahead s token more tokens =>
    exact absurd hkind (scan_kind_ne_eof ahead token (tokens ▸ List.mem_cons_self))

/-- The end is given only at the end, and then again and again. -/
theorem next_of_eof (h : lx.Ready) (hkind : lx.next.1.token.kind = .eof) :
    lx.next.1.token = .bare .eof lx.endRange ∧ lx.next.2.Ended := by
  cases hpending : lx.pending with
  | nil =>
    rw [next_of_pending_nil hpending] at hkind ⊢
    exact read_of_eof hpending [] hkind
  | cons token pending =>
    have hnext : lx.next = (⟨token, []⟩, { lx with pending }) := by
      unfold next
      rw [hpending]
    rw [hnext] at hkind
    exact absurd hkind (h token (hpending ▸ List.mem_cons_self))

/-! ### Calls and the stream -/

theorem stream_of_eof (hkind : lx.next.1.token.kind = .eof) :
    lx.stream.tokens = [] ∧ lx.stream.eof = lx.next.1 := by
  rw [stream, dif_pos hkind]
  exact ⟨rfl, rfl⟩

theorem stream_of_token (hkind : lx.next.1.token.kind ≠ .eof) :
    lx.stream.tokens = lx.next.1 :: lx.next.2.stream.tokens ∧ lx.stream.eof = lx.next.2.stream.eof := by
  rw [stream, dif_neg hkind]
  exact ⟨rfl, rfl⟩

theorem read_source (lx : Lexer) (errors : List LexError) : (lx.read errors).2.source = lx.source := by
  fun_induction read lx errors with
  | case1 lx errors ahead lexed rest atEnd =>
    simp only [Lexer.atEnd] at atEnd
    split at atEnd <;> cases atEnd <;> rfl
  | case2 lx errors c rest ahead s tokens ih => exact ih
  | case3 lx errors c rest ahead s token more tokens => rfl

theorem next_source (lx : Lexer) : lx.next.2.source = lx.source := by
  unfold next
  split
  · rfl
  · exact lx.read_source []

theorem afterCalls_source (lx : Lexer) (n : Nat) : (lx.afterCalls n).source = lx.source := by
  induction n with
  | zero => rfl
  | succ n ih => rw [afterCalls_succ, next_source, ih]

/-- The end of the stream stands at the end of the text. -/
theorem stream_eof_token (lx : Lexer) (h : lx.Ready) : lx.stream.eof.token = .bare .eof lx.endRange := by
  by_cases hkind : lx.next.1.token.kind = .eof
  · rw [(stream_of_eof hkind).2]
    exact (next_of_eof h hkind).1
  · rw [(stream_of_token hkind).2, stream_eof_token lx.next.2 (ready_next h), endRange, next_source]
    rfl
termination_by lx.remaining
decreasing_by exact lx.next_remaining_lt hkind

end Lexer

end BraceLang
