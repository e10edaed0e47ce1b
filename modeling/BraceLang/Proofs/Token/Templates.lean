import BraceLang.Proofs.Token.Layout
import Mathlib.Data.List.Basic

/-! Templates among the tokens of a text. A template is opened and closed by a token of its own, whichever
    way the text ends it, and stands inside at most one other, which is then reported.

    Main statement: in every prefix of the tokens of a source the marks that close a template are at most
    as many as those that open one, at most two fewer, and in the end as many. -/

namespace BraceLang

/-- How a token changes the number of templates that are open. -/
inductive Lexed.Steps : Nat → Lexed → Nat → Prop where
  | opens {x : Lexed} (kind : x.token.kind = .templateOpen) : Steps 0 x 1
  /-- A template inside another is reported where it opens. -/
  | nested {x : Lexed} (kind : x.token.kind = .templateOpen)
    (reported : ⟨.nestedTemplate, x.token.range⟩ ∈ x.errors) : Steps 1 x 2
  | text {n : Nat} {x : Lexed} (kind : x.token.kind = .templateText) : Steps (n + 1) x (n + 1)
  | closes {n : Nat} {x : Lexed} (kind : x.token.kind = .templateClose) : Steps (n + 1) x n
  /-- Code stands outside templates and in their holes, but not in one that is nested. -/
  | code {n : Nat} {x : Lexed} (kind : x.token.kind ∉ [.eof, .templateOpen, .templateText, .templateClose])
    (shallow : n ≤ 1) : Steps n x n

/-- How many tokens are of a kind. -/
def Lexed.count (k : Kind) (xs : List Lexed) : Nat := xs.countP (·.token.kind = k)

namespace Lexed

variable {x : Lexed} {n m k : Nat} {xs ys : List Lexed}

theorem count_append (k : Kind) (xs ys : List Lexed) : count k (xs ++ ys) = count k xs + count k ys :=
  List.countP_append

theorem Steps.kind_ne_eof (h : x.Steps n m) : x.token.kind ≠ .eof := by
  intro eof
  cases h with
  | code kind _ => exact kind (by rw [eof]; exact List.mem_cons_self)
  | opens kind | nested kind _ | text kind | closes kind => cases kind.symm.trans eof

theorem Steps.of_isPlain (plain : x.token.kind.isPlain = true) (shallow : n ≤ 1) : x.Steps n n := by
  simp only [Kind.isPlain, decide_eq_true_eq, List.mem_cons, List.not_mem_nil, or_false, not_or] at plain
  exact .code (by simp [plain]) shallow

theorem Steps.pos_of_text (h : x.Steps n m) (text : x.token.kind = .templateText) : 0 < n := by
  cases h with
  | text _ | closes _ => exact Nat.succ_pos _
  | opens kind | nested kind _ => cases kind.symm.trans text
  | code kind _ => exact absurd (by simp [text]) kind

theorem Steps.le_two (h : x.Steps n m) (le : n ≤ 2) : m ≤ 2 := by
  cases h <;> omega

theorem Steps.count_eq (h : x.Steps n m) : m + count .templateClose [x] = n + count .templateOpen [x] := by
  cases h with
  | opens kind | nested kind _ | text kind | closes kind => simp [count, kind]
  | code kind _ =>
    simp only [List.mem_cons, List.not_mem_nil, or_false, not_or] at kind
    simp [count, kind]

/-! ### Runs of tokens -/

/-- Tokens that lead, one after the other, from one number of open templates to another. -/
inductive Runs : Nat → List Lexed → Nat → Prop where
  | nil {n : Nat} : Runs n [] n
  | cons {n m k : Nat} {x : Lexed} {xs : List Lexed} (step : x.Steps n m) (more : Runs m xs k) :
    Runs n (x :: xs) k

theorem Runs.split (h : Runs n (xs ++ ys) k) : ∃ m, Runs n xs m ∧ Runs m ys k := by
  induction xs generalizing n with
  | nil => exact ⟨n, .nil, h⟩
  | cons x xs ih =>
    obtain _ | ⟨step, more⟩ := h
    obtain ⟨m, first, later⟩ := ih more
    exact ⟨m, .cons step first, later⟩

theorem Runs.eq_of_nil (h : Runs n [] m) : n = m := by
  cases h
  rfl

theorem Runs.trans (h : Runs n xs m) (h' : Runs m ys k) : Runs n (xs ++ ys) k := by
  induction h with
  | nil => exact h'
  | cons step _ ih => exact .cons step (ih h')

theorem Runs.texts (h : ∀ x ∈ xs, x.token.kind = .templateText) : Runs (n + 1) xs (n + 1) := by
  induction xs with
  | nil => exact .nil
  | cons x xs ih =>
    obtain ⟨hx, hxs⟩ := List.forall_mem_cons.mp h
    exact .cons (.text hx) (ih hxs)

theorem Runs.le_two (h : Runs n xs m) (le : n ≤ 2) : m ≤ 2 := by
  induction h with
  | nil => exact le
  | cons step _ ih => exact ih (step.le_two le)

theorem Runs.count_eq (h : Runs n xs m) : m + count .templateClose xs = n + count .templateOpen xs := by
  induction h with
  | nil => rfl
  | @cons n m k x xs step _ ih =>
    have first := step.count_eq
    rw [← List.singleton_append, count_append, count_append]
    omega

/-- Behind tokens that leave two templates open, the inner one has just been opened, and reported. -/
theorem Runs.nested (h : Runs n xs m) (le : n ≤ 2) (two : m = 2) :
    (n = 2 ∧ ∀ x ∈ xs, x.token.kind = .templateText) ∨
      ∃ outer opening inner, xs = outer ++ opening :: inner ∧ opening.token.kind = .templateOpen ∧
        ⟨.nestedTemplate, opening.token.range⟩ ∈ opening.errors ∧
        ∀ x ∈ inner, x.token.kind = .templateText := by
  induction h with
  | nil => exact .inl ⟨two, List.forall_mem_nil _⟩
  | @cons n m k x xs step _ ih =>
    obtain ⟨rfl, texts⟩ | ⟨outer, opening, inner, rfl, found⟩ := ih (step.le_two le) two
    · cases step with
      | nested kind reported => exact .inr ⟨[], x, xs, rfl, kind, reported, texts⟩
      | text kind => exact .inl ⟨rfl, List.forall_mem_cons.mpr ⟨kind, texts⟩⟩
      | closes kind => omega
      | code kind shallow => omega
    · exact .inr ⟨x :: outer, opening, inner, rfl, found⟩

end Lexed

/-! ### One look at the text -/

open Lexed (Steps Runs)

/-- The number of templates open around code, by the braces open in a hole. -/
def templatesAround : Option Nat → Nat
  | none => 0
  | some _ => 1

theorem templatesAround_le (hole : Option Nat) : templatesAround hole ≤ 1 := by
  cases hole with
  | none => exact Nat.zero_le 1
  | some _ => exact Nat.le_refl 1

/-- The tokens of a scan as they are handed out: what was wrong before and in the scan goes with the first. -/
def Scan.handed (before : List LexError) (s : Scan) : List Lexed :=
  match s.tokens with
  | [] => []
  | t :: ts => ⟨t, before ++ s.errors⟩ :: ts.map (⟨·, []⟩)

theorem Scan.token_handed (before : List LexError) (s : Scan) : (s.handed before).map (·.token) = s.tokens := by
  unfold handed
  split
  · simp [*]
  · simp [*, Function.comp_def]

namespace Lexer

variable {lx : Lexer}

/-- A scan keeps account of the templates that are open. -/
def Keeps (lx : Lexer) (s : Scan) : Prop :=
  ∀ before, Runs (templatesAround lx.hole) (s.handed before) (templatesAround s.hole)

theorem skip_keeps (n : Nat) (errors : List LexError) : lx.Keeps (lx.skip n errors) := fun _ => .nil

theorem emit_keeps {t : Token} (plain : t.kind.isPlain = true) (n : Nat) (errors : List LexError) :
    lx.Keeps (lx.emit n t errors) :=
  fun _ => .cons (.of_isPlain plain (templatesAround_le _)) .nil

theorem blockComment_keeps (body : List Char) : lx.Keeps (lx.blockComment body) := by
  unfold blockComment
  split
  · exact skip_keeps _ _
  · exact skip_keeps _ _

theorem word_keeps (first : Char) (rest : List Char) : lx.Keeps (lx.word first rest) := by
  simp only [word]
  split
  · exact emit_keeps rfl _ _
  · rename_i found
    exact emit_keeps (Kind.isPlain_of_ofWord? found) _ _
  · exact emit_keeps rfl _ _

theorem integer_keeps (chars : List Char) (value : Nat) : lx.Keeps (lx.integer chars value) := by
  unfold integer
  split
  · exact emit_keeps rfl _ _
  · exact emit_keeps rfl _ _

theorem radixInteger_keeps (radix : Radix) (letter : Char) (rest : List Char) :
    lx.Keeps (lx.radixInteger radix letter rest) := by
  simp only [radixInteger]
  split
  · exact emit_keeps rfl _ _
  · exact integer_keeps _ _

theorem decimalNumber_keeps (first : Char) (rest : List Char) : lx.Keeps (lx.decimalNumber first rest) := by
  simp only [decimalNumber]
  split
  · exact emit_keeps rfl _ _
  · exact integer_keeps _ _

theorem charLiteral_keeps (rest : List Char) : lx.Keeps (lx.charLiteral rest) := by
  unfold charLiteral
  split
  case h_4 =>
    dsimp only
    split
    · exact emit_keeps rfl _ _
    · exact skip_keeps _ _
  all_goals exact skip_keeps _ _

theorem stringLiteral_keeps (rest : List Char) : lx.Keeps (lx.stringLiteral rest) := by
  unfold stringLiteral
  split
  · exact emit_keeps rfl _ _
  · exact emit_keeps rfl _ _

/-! ### Templates -/

/-- Template text and what ends it, whichever of its tokens the errors go with. -/
theorem templateText_runs {rest : List Char} {resumed : Bool} {xs : List Lexed}
    (tokens : xs.map (·.token) = (lx.templateText rest resumed).tokens) :
    Runs 1 xs (templatesAround (lx.templateText rest resumed).hole) := by
  have segment (text : List Char) : ∀ t ∈ if text.isEmpty then [] else [lx.segmentToken text],
      t.kind = .templateText := by
    split
    · exact List.forall_mem_nil _
    · exact List.forall_mem_singleton.mpr rfl
  have closed {ts : List Token} {range : Range} (texts : ∀ t ∈ ts, t.kind = .templateText)
      (tokens : xs.map (·.token) = ts ++ [.bare .templateClose range]) : Runs 1 xs 0 := by
    obtain ⟨ys, zs, rfl, rfl, last⟩ := List.map_eq_append_iff.mp tokens
    obtain ⟨close, rfl, hclose⟩ := List.map_eq_singleton_iff.mp last
    refine (Runs.texts fun y hy => texts _ (List.mem_map_of_mem hy)).trans (.cons (.closes ?_) .nil)
    rw [hclose]
    rfl
  revert tokens
  simp only [templateText]
  split
  · exact closed (segment _)
  · intro tokens
    refine Runs.texts fun x hx => ?_
    have ht : x.token ∈ xs.map (·.token) := List.mem_map_of_mem hx
    rw [tokens] at ht
    split at ht
    · exact List.mem_singleton.mp ht ▸ rfl
    · exact segment _ _ ht
  · exact closed (segment _)

theorem nestedTemplate_keeps {braces : Nat} (hole : lx.hole = some braces) (rest : List Char) :
    lx.Keeps (lx.nestedTemplate rest) := by
  have drained {opening text close : Token} {before : List LexError} (hopen : opening.kind = .templateOpen)
      (htext : text.kind = .templateText) (hclose : close.kind = .templateClose)
      (reported : ⟨.nestedTemplate, opening.range⟩ ∈ before) :
      Runs 1 [⟨opening, before⟩, ⟨text, []⟩, ⟨close, []⟩] 1 :=
    .cons (.nested hopen reported) (.cons (.text htext) (.cons (.closes hclose) .nil))
  intro before
  have reported : (⟨.nestedTemplate, lx.rangeAt 0 1⟩ : LexError) ∈
      before ++ [⟨.nestedTemplate, lx.rangeAt 0 1⟩] := List.mem_append_right _ List.mem_cons_self
  unfold nestedTemplate
  split
  · rw [hole]
    exact drained rfl rfl rfl reported
  · rw [hole]
    exact drained rfl rfl rfl reported

theorem template_keeps (rest : List Char) : lx.Keeps (lx.template rest) := by
  unfold template
  split
  · rename_i hole
    exact nestedTemplate_keeps hole rest
  · rename_i hole
    intro before
    rw [hole]
    refine .cons (.opens rfl) (templateText_runs ?_)
    rw [List.map_map]
    exact List.map_id _

theorem symbol_keeps {k : Kind} {cs : List Char} (symbol : Kind.ofSymbol? cs = some k) (rest : List Char) :
    lx.Keeps (lx.symbol k rest) := by
  have symbols : ∀ k ∈ Kind.symbols, k ∉ [.eof, .templateOpen, .templateText, .templateClose] := by decide
  have code := symbols k (List.mem_of_find?_eq_some symbol)
  intro before
  simp only [Lexer.symbol]
  split
  · rename_i hole
    rw [hole]
    exact .cons (.code code (Nat.le_refl 1)) .nil
  · rename_i hole
    rw [hole]
    exact templateText_runs (Scan.token_handed _ _)
  · rename_i hole
    rw [hole]
    exact .cons (.code code (Nat.le_refl 1)) .nil
  · exact .cons (.code code (templatesAround_le _)) .nil

theorem scan_keeps (first : Char) (rest : List Char) : lx.Keeps (lx.scan first rest) := by
  unfold scan
  split
  · exact skip_keeps _ _
  split
  · exact word_keeps _ _
  split
  · split
    · split
      · exact radixInteger_keeps _ _ _
      · exact decimalNumber_keeps _ _
    · exact decimalNumber_keeps _ _
  split
  · exact skip_keeps _ _
  · exact blockComment_keeps _
  · exact charLiteral_keeps _
  · exact stringLiteral_keeps _
  · exact template_keeps _
  · split
    · rename_i symbol
      exact symbol_keeps symbol _
    · exact skip_keeps _ _

/-! ### The stream -/

/-- The tokens that wait to be handed out lead from `n` open templates to those around the cursor. -/
def Owes (lx : Lexer) (n : Nat) : Prop := Runs n (lx.pending.map (⟨·, []⟩)) (templatesAround lx.hole)

theorem atEnd_owes (pending : lx.pending = []) (errors : List LexError) :
    (lx.atEnd.1.token.kind = .eof ∧ templatesAround lx.hole = 0) ∨
      ∃ m, Steps (templatesAround lx.hole) { lx.atEnd.1 with errors } m ∧ lx.atEnd.2.Owes m := by
  unfold atEnd
  split
  · rename_i hole
    rw [hole]
    refine .inr ⟨0, .closes rfl, ?_⟩
    unfold Owes
    rw [pending]
    exact .nil
  · rename_i hole
    rw [hole]
    exact .inl ⟨rfl, rfl⟩

theorem read_owes (errors : List LexError) (pending : lx.pending = []) :
    ((lx.read errors).1.token.kind = .eof ∧ templatesAround lx.hole = 0) ∨
      ∃ m, Steps (templatesAround lx.hole) (lx.read errors).1 m ∧ (lx.read errors).2.Owes m := by
  fun_induction read lx errors with
  | case1 lx errors ahead lexed later ended =>
    have atEnd := atEnd_owes pending (errors ++ lexed.errors)
    rw [ended] at atEnd
    exact atEnd
  | case2 lx errors c rest ahead s tokens ih =>
    have kept := lx.scan_keeps c rest errors
    rw [Scan.handed, tokens] at kept
    rw [kept.eq_of_nil]
    exact ih (by rw [after, tokens, List.tail_nil])
  | case3 lx errors c rest ahead s token more tokens =>
    have kept := lx.scan_keeps c rest errors
    rw [Scan.handed, tokens] at kept
    obtain _ | ⟨step, waiting⟩ := kept
    refine .inr ⟨_, step, ?_⟩
    rw [Owes, after, tokens]
    exact waiting

theorem next_owes {n : Nat} (owed : lx.Owes n) :
    (lx.next.1.token.kind = .eof ∧ n = 0) ∨ ∃ m, Steps n lx.next.1 m ∧ lx.next.2.Owes m := by
  unfold next
  split
  · rename_i token pending waiting
    rw [Owes, waiting] at owed
    obtain _ | ⟨step, more⟩ := owed
    exact .inr ⟨_, step, more⟩
  · rename_i waiting
    rw [Owes, waiting] at owed
    rw [Runs.eq_of_nil owed]
    exact read_owes [] waiting

theorem stream_runs (lx : Lexer) {n : Nat} (owed : lx.Owes n) : Runs n lx.stream.tokens 0 := by
  rw [stream]
  obtain ⟨eof, rfl⟩ | ⟨m, step, later⟩ := next_owes owed
  · rw [dif_pos eof]
    exact .nil
  · rw [dif_neg step.kind_ne_eof]
    exact .cons step (stream_runs lx.next.2 later)
termination_by lx.remaining
decreasing_by exact lx.next_remaining_lt step.kind_ne_eof

end Lexer

open Lexed (count) in
/-- The templates of a source are balanced: in every prefix of its tokens at most two are open, a second one
    only from where it is reported as nested to the end of its text; none is open behind the last token; and
    template text stands only where a template is open. -/
theorem TokenStream.ofSource_templates_balanced (source : Source) :
    (∀ taken, taken <+: (ofSource source).tokens →
      count .templateClose taken ≤ count .templateOpen taken ∧
      count .templateOpen taken ≤ count .templateClose taken + 2 ∧
      (count .templateOpen taken = count .templateClose taken + 2 →
        ∃ outer opening inner, taken = outer ++ opening :: inner ∧ opening.token.kind = .templateOpen ∧
          (∃ e ∈ opening.errors, e.cause.code.text = "E0005" ∧ e.range = opening.token.range) ∧
          ∀ x ∈ inner, x.token.kind = .templateText)) ∧
    count .templateOpen (ofSource source).tokens = count .templateClose (ofSource source).tokens ∧
    ∀ taken x, taken ++ [x] <+: (ofSource source).tokens → x.token.kind = .templateText →
      count .templateClose taken < count .templateOpen taken := by
  have all : Runs 0 (ofSource source).tokens 0 := (Lexer.start source).stream_runs .nil
  refine ⟨?_, ?_, ?_⟩
  · rintro taken ⟨later, htaken⟩
    rw [← htaken] at all
    obtain ⟨m, run, -⟩ := all.split
    have counts := run.count_eq
    have few := run.le_two (by omega)
    refine ⟨by omega, by omega, fun two => ?_⟩
    obtain ⟨two, -⟩ | ⟨outer, opening, inner, rfl, kind, reported, texts⟩ := run.nested (by omega) (by omega)
    · cases two
    · exact ⟨outer, opening, inner, rfl, kind, ⟨_, reported, rfl, rfl⟩, texts⟩
  · have counts := all.count_eq
    omega
  · rintro taken x ⟨later, htaken⟩ text
    rw [← htaken, List.append_assoc] at all
    obtain ⟨m, run, more⟩ := all.split
    have counts := run.count_eq
    obtain _ | ⟨step, -⟩ := more
    have inside := step.pos_of_text text
    omega

end BraceLang
