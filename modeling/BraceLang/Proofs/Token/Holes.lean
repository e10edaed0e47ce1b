import BraceLang.Proofs.Token.Closers
import BraceLang.Proofs.Token.Tally
import Mathlib.Data.List.Chain
import Mathlib.Data.List.Pairwise

/-! The holes of templates. A hole has no tokens of its own: it reaches from behind the mark that opens it up to
    the brace that closes it (`Source.holes`), and the tokens only tell where it ends. Behind the text of a
    template, and behind a token in a hole, stands more of the hole, more text or the end of the template
    (`Linked`); so code that goes on without a token of the template stays in one hole.

    Main statements: a hole stands between its mark and its brace (`Source.holes_marked`), and the tokens of a text
    with which nothing is wrong stand to its holes as they should (`TokenStream.ofSource_hollow`). -/

namespace BraceLang

open Text (byteLength)

namespace Kind

/-- Whether a token of this kind ends the code of a hole: template text or the end of the template. -/
def isSeam : Kind → Bool
  | templateText | templateClose => true
  | _ => false

/-- Whether a token of this kind is part of a template itself and not of the code in it. -/
def isTemplate (k : Kind) : Bool := k == templateOpen || k.isSeam

theorem isTemplate_of_isSeam {k : Kind} (h : k.isSeam = true) : k.isTemplate = true := by
  rw [isTemplate, h, Bool.or_true]

theorem isTemplate_of_isPlain {k : Kind} (h : k.isPlain = true) : k.isTemplate = false := by
  cases k
  case templateOpen | templateText | templateClose => cases h
  all_goals rfl

theorem isTemplate_of_symbol {k : Kind} {cs : List Char} (h : ofSymbol? cs = some k) : k.isTemplate = false := by
  have symbols : ∀ k ∈ symbols, k.isTemplate = false := by decide
  exact symbols k (List.mem_of_find?_eq_some h)

/-- Behind a token that does not close a hole, there is a hole open as before. -/
theorem isSome_of_holeAfter? {k : Kind} {hole hole' : Option Nat} (h : k.holeAfter? hole = some hole') :
    hole'.isSome = hole.isSome := by
  unfold holeAfter? at h
  split at h
  · cases h
    rfl
  · cases h
  · cases h
    rfl
  · cases h
    rfl

end Kind

namespace Range

/-- There is a byte at least between the two ranges. -/
def Apart (a b : Range) : Prop := a.stop.pos < b.start.pos ∨ b.stop.pos < a.start.pos

theorem contains_iff {a b : Range} : a.contains b = true ↔
    a.source = b.source ∧ a.start.pos ≤ b.start.pos ∧ b.stop.pos ≤ a.stop.pos := by
  simp [contains, and_assoc]

/-- Nothing lies in a range that it is apart from. -/
theorem Apart.not_contains {a b : Range} (h : a.Apart b) (hb : b.start.pos ≤ b.stop.pos) : a.contains b ≠ true := by
  intro hab
  obtain ⟨-, hstart, hstop⟩ := contains_iff.mp hab
  rcases h with h | h <;> omega

end Range

/-! ### Where the holes are -/

/-- The holes that close in the text ahead; the one that the lexer stands in, if any, begins at `start`. -/
def Lexer.holes (lx : Lexer) (start : Nat) : List Range :=
  match _h : lx.cursor.ahead with
  | [] => []
  | first :: rest =>
    let next := (lx.after (lx.scan first rest)).settled
    if first = '\x7d' ∧ lx.hole = some 0 then
      lx.source.range start lx.cursor.pos :: next.holes next.cursor.pos
    else next.holes (if lx.hole.isSome then start else next.cursor.pos)
termination_by lx.cursor.ahead.length
decreasing_by all_goals exact ahead_after_lt _h _

/-- The holes of the templates in a source, each from behind the mark that opens it up to its closing brace. -/
def Source.holes (source : Source) : List Range := (Lexer.start source).holes 0

/-- A hole stands between the mark that opens it and the brace that closes it. -/
def Range.Marked (source : Source) (hole : Range) : Prop :=
  ∃ before code after, source.chars = before ++ ['$', '\x7b'] ++ code ++ '\x7d' :: after ∧
    hole = source.range (byteLength before + 2) (byteLength before + 2 + byteLength code)

theorem Source.range_start_le_stop (source : Source) (start stop : Nat) :
    (source.range start stop).start.pos ≤ (source.range start stop).stop.pos := by
  show min start source.length ≤ min (max stop start) source.length
  omega

/-- How a token leads to the next one in a text with these holes. -/
structure Linked (hs : List Range) (t u : Token) : Prop where
  /-- Template text goes on as text or leads into a hole. -/
  enters : t.kind = .templateOpen ∨ t.kind = .templateText →
    u.kind.isSeam = true ∨ ∃ h ∈ hs, h.contains u.range = true
  /-- Code leaves its hole only for the template around it. -/
  stays : ∀ h ∈ hs, h.contains t.range = true → u.kind.isSeam = true ∨ h.contains u.range = true

/-- The tokens of a text and its holes. -/
structure Hollow (ts : List Token) (hs : List Range) : Prop where
  linked : ts.IsChain (Linked hs)
  apart : ∀ t ∈ ts, t.kind.isTemplate = true → ∀ h ∈ hs, h.Apart t.range
  ordered : hs.Pairwise fun h h' => h.stop.pos < h'.start.pos

/-- The first token of a template among the tokens, if there is one, opens it. -/
def OpensFirst (ts : List Token) : Prop := ∀ t ∈ ts.find? (·.kind.isTemplate), t.kind = .templateOpen

theorem OpensFirst.nil : OpensFirst [] := fun _ h => by cases h

theorem OpensFirst.append {ts us : List Token} (h : OpensFirst ts) (h' : OpensFirst us) : OpensFirst (ts ++ us) := by
  intro t ht
  rw [List.find?_append, Option.mem_def, Option.or_eq_some_iff] at ht
  exact ht.elim (h t) fun ht => h' t ht.2

theorem OpensFirst.code {t : Token} (h : t.kind.isTemplate = false) : OpensFirst [t] := by
  intro u hu
  rw [List.find?_cons_of_neg (by rw [h]; exact Bool.false_ne_true)] at hu
  cases hu

theorem OpensFirst.opening {t : Token} {ts : List Token} (h : t.kind = .templateOpen) : OpensFirst (t :: ts) := by
  intro u hu
  rw [List.find?_cons_of_pos (by rw [h]; rfl)] at hu
  cases hu
  exact h

namespace Hollow
variable {ts us : List Token} {hs : List Range} {hole : Range} {t : Token}

/-- Tokens before those holes, each but the first a token of the template that goes on. -/
theorem append (hts : Hollow ts hs) (hus : ∀ u ∈ us.tail, u.kind.isSeam = true)
    (stands : ∀ u ∈ us, u.range.start.pos ≤ u.range.stop.pos) (away : ∀ u ∈ us, ∀ h ∈ hs, h.Apart u.range)
    (last : ∀ u ∈ us.getLast?, ∀ v ∈ ts.head?, u.kind = .templateOpen ∨ u.kind = .templateText →
      v.kind.isSeam = true ∨ ∃ h ∈ hs, h.contains v.range = true) : Hollow (us ++ ts) hs where
  linked := by
    have outside {u : Token} (hu : u ∈ us) {h : Range} (hh : h ∈ hs) : h.contains u.range ≠ true :=
      (away u hu h hh).not_contains (stands u hu)
    refine List.IsChain.append ?_ hts.linked fun u hu v hv => ⟨last u hu v hv, fun h hh hc => ?_⟩
    · clear last away stands
      induction us with
      | nil => exact .nil
      | cons u us ih =>
        have outside' {v : Token} (hv : v ∈ us) {h : Range} : h ∈ hs → h.contains v.range ≠ true :=
          outside (List.mem_cons_of_mem u hv)
        refine (ih (fun v hv => hus v (List.mem_of_mem_tail hv)) outside').cons fun v hv => ?_
        have seam := hus v (List.mem_of_mem_head? hv)
        exact ⟨fun _ => .inl seam, fun _ _ _ => .inl seam⟩
    · exact absurd hc (outside (List.mem_of_getLast? hu) hh)
  apart := List.forall_mem_append.mpr ⟨fun u hu _ => away u hu, hts.apart⟩
  ordered := hts.ordered

/-- A token before holes and before the tokens in them. -/
theorem cons_outside (hts : Hollow ts hs) (code : t.kind.isTemplate = false)
    (stands : t.range.start.pos ≤ t.range.stop.pos) (away : ∀ h ∈ hs, h.Apart t.range) : Hollow (t :: ts) hs := by
  show Hollow ([t] ++ ts) hs
  refine hts.append (List.forall_mem_nil _) (List.forall_mem_singleton.mpr stands)
    (List.forall_mem_singleton.mpr away) ?_
  rintro u ⟨⟩ v - (hk | hk)
  all_goals
    replace hk : t.kind = _ := hk
    rw [hk] at code
    cases code

/-- A token of code in the first of the holes. -/
theorem cons_held (hts : Hollow ts (hole :: hs)) (code : t.kind.isTemplate = false)
    (stands : t.range.start.pos ≤ t.range.stop.pos) (held : hole.contains t.range = true)
    (next : ∀ u ∈ ts.head?, u.kind.isSeam = true ∨ hole.contains u.range = true) :
    Hollow (t :: ts) (hole :: hs) where
  linked := by
    refine hts.linked.cons fun u hu => ⟨?_, List.forall_mem_cons.mpr ⟨fun _ => next u hu, fun h hh hc => ?_⟩⟩
    · rintro (hk | hk)
      all_goals
        rw [hk] at code
        cases code
    · have hbefore := List.rel_of_pairwise_cons hts.ordered hh
      have hstart := (Range.contains_iff.mp hc).2.1
      have hstop := (Range.contains_iff.mp held).2.2
      omega
  apart := List.forall_mem_cons.mpr ⟨fun hk => (Bool.false_ne_true (code.symm.trans hk)).elim, hts.apart⟩
  ordered := hts.ordered

/-- A hole before all of the tokens. -/
theorem cons_hole (hts : Hollow ts hs) (stands : ∀ t ∈ ts, t.range.start.pos ≤ t.range.stop.pos)
    (behind : ∀ t ∈ ts, hole.stop.pos < t.range.start.pos) (before : ∀ h ∈ hs, hole.stop.pos < h.start.pos) :
    Hollow ts (hole :: hs) where
  linked := by
    refine hts.linked.imp_of_mem_imp fun t u ht hu link => ⟨fun hk => ?_, ?_⟩
    · exact (link.enters hk).imp_right fun ⟨h, hh, hc⟩ => ⟨h, List.mem_cons_of_mem hole hh, hc⟩
    · have outside : hole.contains t.range ≠ true := Range.Apart.not_contains (.inl (behind t ht)) (stands t ht)
      exact List.forall_mem_cons.mpr ⟨fun hc => absurd hc outside, link.stays⟩
  apart t ht hk := List.forall_mem_cons.mpr ⟨.inl (behind t ht), hts.apart t ht hk⟩
  ordered := .cons before hts.ordered

theorem of_infix (hts : Hollow ts hs) (hus : us <:+: ts) : Hollow us hs where
  linked := hts.linked.infix hus
  apart u hu := hts.apart u (hus.subset hu)
  ordered := hts.ordered

/-- A token that lies in a hole is a token of code. -/
theorem code_of_contains (hts : Hollow ts hs) (ht : t ∈ ts) (stands : t.range.start.pos ≤ t.range.stop.pos)
    (hh : hole ∈ hs) (hc : hole.contains t.range = true) : t.kind.isTemplate = false := by
  by_contra htemplate
  exact (hts.apart t ht (Bool.not_eq_false _ ▸ htemplate) hole hh).not_contains stands hc

/-- What lies in holes lies in one only. -/
theorem hole_unique (hts : Hollow ts hs) {hole' range : Range} (hh : hole ∈ hs) (hh' : hole' ∈ hs)
    (stands : range.start.pos ≤ range.stop.pos) (hc : hole.contains range = true)
    (hc' : hole'.contains range = true) : hole = hole' := by
  have apart : hs.Pairwise fun h h' => h.stop.pos < h'.start.pos ∨ h'.stop.pos < h.start.pos :=
    hts.ordered.imp Or.inl
  have symm : Std.Symm fun h h' : Range => h.stop.pos < h'.start.pos ∨ h'.stop.pos < h.start.pos :=
    ⟨fun _ _ => Or.symm⟩
  by_contra hne
  have hbetween := apart.forall hh hh' hne
  obtain ⟨-, hstart, hstop⟩ := Range.contains_iff.mp hc
  obtain ⟨-, hstart', hstop'⟩ := Range.contains_iff.mp hc'
  omega

/-- Code that starts in a hole stays there up to the next token of the template. -/
theorem held (hts : Hollow (t :: ts) hs) (stands : ∀ u ∈ t :: ts, u.range.start.pos ≤ u.range.stop.pos)
    (first : OpensFirst (t :: ts)) (hh : hole ∈ hs) (hc : hole.contains t.range = true) :
    ∀ u ∈ t :: ts, hole.contains u.range = true := by
  induction ts generalizing t with
  | nil => exact List.forall_mem_singleton.mpr hc
  | cons u ts ih =>
    have code := hts.code_of_contains List.mem_cons_self (stands t List.mem_cons_self) hh hc
    have first' : OpensFirst (u :: ts) := by
      unfold OpensFirst at first
      rwa [List.find?_cons_of_neg (by rw [code]; exact Bool.false_ne_true)] at first
    have hc' : hole.contains u.range = true := by
      refine ((List.isChain_cons_cons.mp hts.linked).1.stays hole hh hc).resolve_left fun hseam => ?_
      have hopen := first' u (List.find?_cons_of_pos (Kind.isTemplate_of_isSeam hseam))
      rw [hopen] at hseam
      cases hseam
    have rest := ih (hts.of_infix (List.suffix_cons t _).isInfix) (fun v hv => stands v (List.mem_cons_of_mem t hv))
      first' hc'
    exact List.forall_mem_cons.mpr ⟨hc, rest⟩

end Hollow

/-! ### One look at the text -/

namespace Lexer
variable {lx : Lexer} {first : Char} {rest : List Char} {start : Nat}

/-- A look that gives at most a token of code and stays in the hole or outside, as before. -/
structure Level (lx : Lexer) (s : Scan) : Prop where
  hole : s.hole.isSome = lx.hole.isSome
  tokens : s.tokens = [] ∨ ∃ t, s.tokens = [t] ∧ t.kind.isTemplate = false

/-- A look opens a template, closes a hole or stays on its level. A template in a hole would be an error. -/
theorem scan_level (clean : (lx.scan first rest).errors = []) : lx.Level (lx.scan first rest) ∨
    lx.hole = none ∧ first = '\x60' ∧ lx.scan first rest = lx.template rest ∨
    lx.hole = some 0 ∧ first = '\x7d' := by
  rcases lx.scan_cases first rest with simple | ⟨hfirst, hscan⟩ | ⟨k, hk, hscan⟩
  · refine .inl ⟨congrArg Option.isSome simple.hole, simple.tokens.imp_right ?_⟩
    rintro ⟨t, n, htokens, plain, -⟩
    exact ⟨t, htokens, Kind.isTemplate_of_isPlain plain⟩
  · refine .inr (.inl ⟨?_, hfirst, hscan⟩)
    cases hole : lx.hole with
    | none => rfl
    | some braces =>
      rw [hscan, template, hole] at clean
      dsimp only [nestedTemplate] at clean
      split at clean <;> cases clean
  · cases hafter : k.holeAfter? lx.hole with
    | some hole' =>
      rw [hscan, symbol_of_holeAfter? hafter]
      exact .inl ⟨Kind.isSome_of_holeAfter? hafter, .inr ⟨_, rfl, Kind.isTemplate_of_symbol hk⟩⟩
    | none =>
      obtain ⟨rfl, hole⟩ := Kind.holeAfter?_eq_none hafter
      have hspelled := List.prefix_iff_eq_take.mp (Kind.prefix_of_ofSymbol? hk)
      exact .inr (.inr ⟨hole, (List.cons.inj hspelled).1.symm⟩)

/-- Template text ends with the template, or with a hole, whose mark then stands behind the text. -/
theorem templateText_seams {resumed : Bool} (clean : (lx.templateText rest resumed).errors = []) :
    (∀ t ∈ (lx.templateText rest resumed).tokens, t.kind.isSeam = true) ∧
    ((lx.templateText rest resumed).hole = none ∧
        (∃ t ∈ (lx.templateText rest resumed).tokens.getLast?, t.kind = .templateClose) ∨
      (lx.templateText rest resumed).hole = some 0 ∧
        (resumed = true → (lx.templateText rest resumed).tokens ≠ []) ∧
        2 ≤ byteLength (rest.take (lx.templateText rest resumed).length) ∧
        ∀ t ∈ (lx.templateText rest resumed).tokens, t.range.stop.pos + 2 ≤
          lx.cursor.pos + 1 + byteLength (rest.take (lx.templateText rest resumed).length)) := by
  obtain ⟨text, stop, more, rfl, -, hscan⟩ := lx.templateText_eq rest resumed
  rw [hscan] at clean ⊢
  have segment : ∀ t ∈ if text.isEmpty then [] else [lx.segmentToken text], t = lx.segmentToken text := by
    split
    · exact List.forall_mem_nil _
    · exact List.forall_mem_singleton.mpr rfl
  cases stop with
  | backtick =>
    refine ⟨List.forall_mem_append.mpr ⟨fun t ht => segment t ht ▸ rfl, ?_⟩, .inl ⟨rfl, ?_⟩⟩
    · exact List.forall_mem_singleton.mpr rfl
    · exact ⟨_, List.getLast?_concat, rfl⟩
  | hole =>
    have between : ∀ t ∈ if resumed then [lx.segmentToken text] else
        if text.isEmpty then [] else [lx.segmentToken text], t = lx.segmentToken text := by
      split
      · exact List.forall_mem_singleton.mpr rfl
      · exact segment
    have hmark : byteLength (List.take 2 (SegmentEnd.hole.mark ++ more)) = 2 := rfl
    dsimp only [segmentScan]
    rw [List.take_length_add_append, Text.byteLength_append, hmark]
    refine ⟨fun t ht => between t ht ▸ rfl, .inr ⟨rfl, ?_, Nat.le_add_left _ _, fun t ht => ?_⟩⟩
    · rintro rfl
      exact List.cons_ne_nil _ _
    · have hstop : (lx.segmentToken text).range.stop.pos ≤ lx.cursor.pos + 1 + byteLength text := by
        show min (max _ _) lx.source.length ≤ _
        omega
      rw [between t ht]
      omega
  | input => cases clean

/-! ### The text ahead -/

/-- The tokens and the holes of the text ahead; the hole that the lexer stands in, if any, begins at `start`. -/
structure Hollowed (lx : Lexer) (start : Nat) : Prop where
  hollow : Hollow lx.stream.toList (lx.holes start)
  /-- Outside of holes, all of them are still to come. -/
  outside : lx.hole = none → ∀ h ∈ lx.holes start, lx.cursor.pos < h.start.pos
  /-- The hole around the lexer is the first to close, and the next token stands in it or behind it. -/
  inside : lx.hole.isSome = true → ∃ hole later, lx.holes start = hole :: later ∧ hole.source = lx.source.id ∧
    hole.start.pos = start ∧ lx.cursor.pos ≤ hole.stop.pos ∧
    ∀ t ∈ lx.stream.toList.head?, t.kind.isSeam = true ∨ hole.contains t.range = true

/-- The lexer behind a look. -/
def behind (lx : Lexer) (first : Char) (rest : List Char) : Lexer := (lx.after (lx.scan first rest)).settled

theorem holes_of_nil (ahead : lx.cursor.ahead = []) : lx.holes start = [] := by
  rw [holes]
  split
  · rfl
  · rename_i heq
    cases ahead.symm.trans heq

theorem holes_of_cons (ahead : lx.cursor.ahead = first :: rest) : lx.holes start =
    if first = '\x7d' ∧ lx.hole = some 0 then
      lx.source.range start lx.cursor.pos :: (lx.behind first rest).holes (lx.behind first rest).cursor.pos
    else (lx.behind first rest).holes (if lx.hole.isSome then start else (lx.behind first rest).cursor.pos) := by
  rw [holes]
  split
  · rename_i heq
    cases ahead.symm.trans heq
  · rename_i heq
    cases ahead.symm.trans heq
    rfl

theorem stream_behind (pending : lx.pending = []) (ahead : lx.cursor.ahead = first :: rest) :
    lx.stream.toList = (lx.scan first rest).tokens ++ (lx.behind first rest).stream.toList :=
  (stream_scan pending ahead).tokens

/-- The tokens of a look stand between its ends. -/
theorem scan_stands (ahead : lx.cursor.ahead = first :: rest) (on : lx.spot.On lx.source) :
    lx.cursor.pos ≤ (lx.behind first rest).cursor.pos ∧
    ∀ t ∈ (lx.scan first rest).tokens, t.Stands lx.source lx.cursor.pos ∧
      t.range.stop.pos ≤ (lx.behind first rest).cursor.pos := by
  have lays := scan_lays ahead fun e (he : e ∈ (lx.scan first rest).errors) => he
  obtain ⟨hpos, hstop⟩ := lays.stop_le on
  exact ⟨hpos, fun t ht => ⟨(lays.ordered on).1 t ht, hstop t ht⟩⟩

/-- A look outside of holes that stays there. -/
theorem hollowed_outside (pending : lx.pending = []) (ahead : lx.cursor.ahead = first :: rest)
    (on : lx.spot.On lx.source) (hole : lx.hole = none) (level : lx.Level (lx.scan first rest))
    (later : (lx.behind first rest).Hollowed (lx.behind first rest).cursor.pos) : lx.Hollowed start := by
  obtain ⟨hpos, hstands⟩ := scan_stands ahead on
  have hole' : (lx.behind first rest).hole = none := by
    have kept : (lx.behind first rest).hole.isSome = lx.hole.isSome := level.hole
    rw [hole] at kept
    exact Option.isNone_iff_eq_none.mp (Option.isSome_eq_false_iff.mp kept)
  have away := later.outside hole'
  have hholes : lx.holes start = (lx.behind first rest).holes (lx.behind first rest).cursor.pos := by
    rw [holes_of_cons ahead, if_neg (by rw [hole]; simp), if_neg (by rw [hole]; exact Bool.false_ne_true)]
  refine ⟨?_, fun _ h hh => Nat.lt_of_le_of_lt hpos (away h (hholes ▸ hh)), fun h => ?_⟩
  · rw [hholes, stream_behind pending ahead]
    rcases level.tokens with hnil | ⟨t, hone, code⟩
    · rw [hnil]
      exact later.hollow
    · obtain ⟨tstands, tstop⟩ := hstands t (hone ▸ List.mem_singleton_self t)
      rw [hone]
      exact later.hollow.cons_outside code tstands.start_le_stop fun h hh =>
        .inr (Nat.lt_of_le_of_lt tstop (away h hh))
  · rw [hole] at h
    cases h

/-- A look in a hole that stays there. -/
theorem hollowed_inside (pending : lx.pending = []) (ahead : lx.cursor.ahead = first :: rest)
    (on : lx.spot.On lx.source) (begun : start ≤ lx.cursor.pos) (within : lx.hole.isSome = true)
    (level : lx.Level (lx.scan first rest)) (stays : ¬(first = '\x7d' ∧ lx.hole = some 0))
    (later : (lx.behind first rest).Hollowed start) : lx.Hollowed start := by
  obtain ⟨hpos, hstands⟩ := scan_stands ahead on
  have hholes : lx.holes start = (lx.behind first rest).holes start := by
    rw [holes_of_cons ahead, if_neg stays, if_pos within]
  obtain ⟨hole, others, hfirst, hsource, hstart, hstop, hnext⟩ := later.inside (level.hole.trans within)
  have hollow := later.hollow
  rw [hfirst] at hholes hollow
  suffices kept : Hollow lx.stream.toList (hole :: others) ∧
      ∀ t ∈ lx.stream.toList.head?, t.kind.isSeam = true ∨ hole.contains t.range = true by
    refine ⟨hholes ▸ kept.1, fun h => ?_, fun _ => ⟨hole, others, hholes, hsource, hstart, hpos.trans hstop, kept.2⟩⟩
    rw [h] at within
    cases within
  rw [stream_behind pending ahead]
  rcases level.tokens with hnil | ⟨t, hone, code⟩
  · rw [hnil]
    exact ⟨hollow, hnext⟩
  · obtain ⟨tstands, tstop⟩ := hstands t (hone ▸ List.mem_singleton_self t)
    have held : hole.contains t.range = true := by
      refine Range.contains_iff.mpr ⟨hsource.trans tstands.source_eq.symm, ?_, tstop.trans hstop⟩
      exact hstart ▸ begun.trans tstands.pos_le
    rw [hone]
    refine ⟨hollow.cons_held code tstands.start_le_stop held hnext, ?_⟩
    rintro u ⟨⟩
    exact .inr held

namespace Hollowed
variable {next : Lexer} {us : List Token}

/-- Text that ends its template, before a text outside of holes. -/
theorem closed (later : next.Hollowed next.cursor.pos) (out : next.hole = none)
    (seams : ∀ u ∈ us, u.kind.isSeam = true) (stands : ∀ u ∈ us, u.range.start.pos ≤ u.range.stop.pos)
    (stop : ∀ u ∈ us, u.range.stop.pos ≤ next.cursor.pos) (last : ∃ u ∈ us.getLast?, u.kind = .templateClose) :
    Hollow (us ++ next.stream.toList) (next.holes next.cursor.pos) := by
  have away := later.outside out
  obtain ⟨t, hlast, hclose⟩ := last
  refine later.hollow.append (fun u hu => seams u (List.mem_of_mem_tail hu)) stands
    (fun u hu h hh => .inr (Nat.lt_of_le_of_lt (stop u hu) (away h hh))) fun u hu _ _ hk => ?_
  cases Option.some.inj (hlast.symm.trans hu)
  rw [hclose] at hk
  rcases hk with hk | hk <;> cases hk

theorem holes_start_le (later : next.Hollowed next.cursor.pos) :
    ∀ h ∈ next.holes next.cursor.pos, next.cursor.pos ≤ h.start.pos := by
  cases hole : next.hole with
  | none => exact fun h hh => Nat.le_of_lt (later.outside hole h hh)
  | some braces =>
    obtain ⟨range, others, hfirst, -, hstart, hstop, -⟩ := later.inside (by rw [hole]; rfl)
    have ordered := later.hollow.ordered
    rw [hfirst] at ordered ⊢
    refine List.forall_mem_cons.mpr ⟨Nat.le_of_eq hstart.symm, fun h hh => ?_⟩
    exact hstop.trans (Nat.le_of_lt (List.rel_of_pairwise_cons ordered hh))

theorem next_mem (later : next.Hollowed next.cursor.pos) (entered : next.hole.isSome = true) :
    ∀ t ∈ next.stream.toList.head?,
      t.kind.isSeam = true ∨ ∃ h ∈ next.holes next.cursor.pos, h.contains t.range = true := by
  obtain ⟨range, others, hfirst, -, -, -, hnext⟩ := later.inside entered
  exact fun t ht => (hnext t ht).imp_right fun hc => ⟨range, hfirst ▸ List.mem_cons_self, hc⟩

/-- Text that leads into a hole, whose mark stands between. -/
theorem entered (later : next.Hollowed next.cursor.pos) (entered : next.hole.isSome = true)
    (seams : ∀ u ∈ us, u.kind.isSeam = true) (stands : ∀ u ∈ us, u.range.start.pos ≤ u.range.stop.pos)
    (stop : ∀ u ∈ us, u.range.stop.pos < next.cursor.pos) :
    Hollow (us ++ next.stream.toList) (next.holes next.cursor.pos) :=
  later.hollow.append (fun u hu => seams u (List.mem_of_mem_tail hu)) stands
    (fun u hu h hh => .inr (Nat.lt_of_lt_of_le (stop u hu) (later.holes_start_le h hh)))
    fun _ _ t ht _ => later.next_mem entered t ht

end Hollowed

/-- The tokens of template text stand behind the one byte before it, up to the end of the look. -/
theorem templateText_stands {resumed : Bool} (ahead : lx.cursor.ahead = first :: rest) (on : lx.spot.On lx.source)
    (size : first.utf8Size = 1) (length : (lx.scan first rest).length = (lx.templateText rest resumed).length) :
    (lx.behind first rest).cursor.pos =
      lx.cursor.pos + 1 + byteLength (rest.take (lx.templateText rest resumed).length) ∧
    ∀ t ∈ (lx.templateText rest resumed).tokens,
      t.Stands lx.source (lx.cursor.pos + 1) ∧ t.range.stop.pos ≤ (lx.behind first rest).cursor.pos := by
  have hpos : (lx.behind first rest).cursor.pos =
      lx.cursor.pos + 1 + byteLength (rest.take (lx.templateText rest resumed).length) := by
    show lx.cursor.pos + byteLength (lx.taken (lx.scan first rest)) = _
    rw [byteLength_taken ahead, size, length, Nat.add_assoc]
  have on' : Spot.On ⟨.text, lx.cursor.pos + 1, rest⟩ lx.source := by
    have here : lx.spot = ⟨.ofHole lx.hole, lx.cursor.pos, [first] ++ rest⟩ := by
      rw [spot, ahead]
      rfl
    have step : Spot.On ⟨.text, lx.cursor.pos + byteLength [first], rest⟩ lx.source := (here ▸ on).step
    rwa [Text.byteLength_cons, size] at step
  have lays : Lays lx.source [] _ _ _ := lx.templateText_lays rest resumed
  exact ⟨hpos, fun t ht => ⟨(lays.ordered on').1 t ht, hpos ▸ (lays.stop_le on').2 t ht⟩⟩

/-- Template text behind one byte, and what stands behind it. -/
structure Resumes (lx : Lexer) (resumed : Bool) (ts : List Token) (hs : List Range) : Prop where
  hollow : Hollow ts hs
  away : ∀ h ∈ hs, lx.cursor.pos + 1 < h.start.pos
  stands : ∀ t ∈ ts, t.Stands lx.source (lx.cursor.pos + 1)
  head : ∀ t ∈ ts.head?, t.kind.isSeam = true ∨ resumed = false ∧ ∃ h ∈ hs, h.contains t.range = true

theorem templateText_resumes {resumed : Bool} (ahead : lx.cursor.ahead = first :: rest) (on : lx.spot.On lx.source)
    (size : first.utf8Size = 1) (clean : (lx.templateText rest resumed).errors = [])
    (length : (lx.scan first rest).length = (lx.templateText rest resumed).length)
    (hole : (lx.scan first rest).hole = (lx.templateText rest resumed).hole)
    (later : (lx.behind first rest).Hollowed (lx.behind first rest).cursor.pos) :
    lx.Resumes resumed ((lx.templateText rest resumed).tokens ++ (lx.behind first rest).stream.toList)
      ((lx.behind first rest).holes (lx.behind first rest).cursor.pos) := by
  obtain ⟨hpos, hstands⟩ := templateText_stands ahead on size length
  have stands (u : Token) (hu : u ∈ (lx.templateText rest resumed).tokens) := (hstands u hu).1.start_le_stop
  have onward := ((lx.behind first rest).stream_lays rfl (on_after on _) fun _ he => he).ordered (on_after on _)
  have hnext : lx.cursor.pos + 1 ≤ (lx.behind first rest).cursor.pos := hpos ▸ Nat.le_add_right _ _
  have standing : ∀ t ∈ (lx.templateText rest resumed).tokens ++ (lx.behind first rest).stream.toList,
      t.Stands lx.source (lx.cursor.pos + 1) :=
    List.forall_mem_append.mpr ⟨fun t ht => (hstands t ht).1, fun t ht => (onward.1 t ht).weaken hnext⟩
  obtain ⟨seams, ⟨closed, last⟩ | ⟨entered, between, mark, before⟩⟩ := templateText_seams clean
  · have out : (lx.behind first rest).hole = none := hole.trans closed
    refine ⟨later.closed out seams stands (fun u hu => (hstands u hu).2) last, fun h hh => ?_, standing,
      fun u hu => .inl (seams u ?_)⟩
    · exact Nat.lt_of_le_of_lt hnext (later.outside out h hh)
    · obtain ⟨t, hlast, -⟩ := last
      rw [List.head?_append_of_ne_nil _ (List.ne_nil_of_mem (List.mem_of_getLast? hlast))] at hu
      exact List.mem_of_mem_head? hu
  · have inside : (lx.behind first rest).hole.isSome = true := by
      show (lx.scan first rest).hole.isSome = true
      rw [hole, entered]
      rfl
    refine ⟨later.entered inside seams stands fun u hu => ?_, fun h hh => ?_, standing, fun t ht => ?_⟩
    · have hbefore := before u hu
      omega
    · have hstart := later.holes_start_le h hh
      omega
    · cases htokens : (lx.templateText rest resumed).tokens with
      | nil =>
        rw [htokens, List.nil_append] at ht
        exact (later.next_mem inside t ht).imp_right fun hc => ⟨Bool.eq_false_iff.mpr fun h => between h htokens, hc⟩
      | cons u us =>
        rw [htokens] at ht
        cases ht
        exact .inl (seams t (htokens ▸ List.mem_cons_self))

/-- A look that opens a template. -/
theorem hollowed_opening (pending : lx.pending = []) (ahead : lx.cursor.ahead = '\x60' :: rest)
    (on : lx.spot.On lx.source) (hole : lx.hole = none) (clean : (lx.scan '\x60' rest).errors = [])
    (later : (lx.behind '\x60' rest).Hollowed (lx.behind '\x60' rest).cursor.pos) : lx.Hollowed start := by
  have hscan : lx.scan '\x60' rest = { lx.templateText rest false with
      tokens := .bare .templateOpen (lx.rangeAt 0 1) :: (lx.templateText rest false).tokens } := by
    show lx.template rest = _
    rw [template, hole]
  rw [hscan] at clean
  have text := templateText_resumes ahead on rfl clean (by rw [hscan]) (by rw [hscan]) later
  have hholes : lx.holes start = (lx.behind '\x60' rest).holes (lx.behind '\x60' rest).cursor.pos := by
    rw [holes_of_cons ahead, if_neg (by rw [hole]; simp), if_neg (by rw [hole]; exact Bool.false_ne_true)]
  have htokens := stream_behind pending ahead
  rw [hscan, List.cons_append] at htokens
  have stop : (lx.rangeAt 0 1).stop.pos ≤ lx.cursor.pos + 1 := by
    show min (max _ _) lx.source.length ≤ _
    omega
  refine ⟨?_, fun _ h hh => Nat.lt_of_succ_lt (text.away h (hholes ▸ hh)), fun h => ?_⟩
  · rw [hholes, htokens]
    show Hollow ([_] ++ (_ ++ _)) _
    refine text.hollow.append (List.forall_mem_nil _) ?_ ?_ ?_
    · exact List.forall_mem_singleton.mpr (Source.range_start_le_stop _ _ _)
    · exact List.forall_mem_singleton.mpr fun h hh => .inr (Nat.lt_of_le_of_lt stop (text.away h hh))
    · exact fun _ _ t ht _ => (text.head t ht).imp_right And.right
  · rw [hole] at h
    cases h

/-- A look at the brace that closes the hole around the lexer. -/
theorem hollowed_closing (pending : lx.pending = []) (ahead : lx.cursor.ahead = '\x7d' :: rest)
    (on : lx.spot.On lx.source) (begun : start ≤ lx.cursor.pos) (hole : lx.hole = some 0)
    (clean : (lx.scan '\x7d' rest).errors = [])
    (later : (lx.behind '\x7d' rest).Hollowed (lx.behind '\x7d' rest).cursor.pos) : lx.Hollowed start := by
  have hscan : lx.scan '\x7d' rest = lx.templateText rest true := symbol_closing hole rest
  rw [hscan] at clean
  have text := templateText_resumes ahead on rfl clean (by rw [hscan]) (by rw [hscan]) later
  have hholes : lx.holes start = _ := (holes_of_cons ahead).trans (if_pos ⟨rfl, hole⟩)
  have htokens := stream_behind pending ahead
  rw [hscan] at htokens
  have fits : lx.cursor.pos ≤ lx.source.length := by
    obtain ⟨behind, hchars, hpos⟩ := on
    rw [lx.source.length_eq, hchars, Text.byteLength_append, hpos]
    exact Nat.le_add_right _ _
  have hstop : (lx.source.range start lx.cursor.pos).stop.pos = lx.cursor.pos := Source.range_stop_pos begun fits
  have hstart : (lx.source.range start lx.cursor.pos).start.pos = start := Source.range_start_pos (begun.trans fits)
  refine ⟨?_, fun h => ?_, fun _ => ⟨_, _, hholes, rfl, hstart, Nat.le_of_eq hstop.symm, ?_⟩⟩
  · rw [hholes, htokens]
    refine text.hollow.cons_hole (fun t ht => (text.stands t ht).start_le_stop) (fun t ht => ?_) fun h hh => ?_
    · rw [hstop]
      exact (text.stands t ht).pos_le
    · rw [hstop]
      exact Nat.lt_of_succ_lt (text.away h hh)
  · rw [hole] at h
    cases h
  · rw [htokens]
    exact fun t ht => .inl ((text.head t ht).resolve_right fun h => Bool.noConfusion h.1)

/-- The tokens and the holes of a text with which nothing is wrong. -/
theorem stream_hollowed (lx : Lexer) (start : Nat) (pending : lx.pending = []) (on : lx.spot.On lx.source)
    (begun : lx.hole.isSome = true → start ≤ lx.cursor.pos) (clean : lx.stream.errors = []) : lx.Hollowed start := by
  cases ahead : lx.cursor.ahead with
  | nil =>
    cases hole : lx.hole with
    | none =>
      refine ⟨?_, fun _ h hh => ?_, fun h => ?_⟩
      · rw [(stream_end pending ahead hole).1, holes_of_nil ahead]
        exact ⟨.nil, List.forall_mem_nil _, .nil⟩
      · rw [holes_of_nil ahead] at hh
        cases hh
      · rw [hole] at h
        cases h
    | some braces =>
      rw [(stream_closing pending ahead hole).2] at clean
      cases clean
  | cons first rest =>
    have puts := stream_scan pending ahead
    obtain ⟨now, onward⟩ := List.append_eq_nil_iff.mp (puts.errors.symm.trans clean)
    have hpos := (scan_stands ahead on).1
    have later (start : Nat)
        (h : (lx.behind first rest).hole.isSome = true → start ≤ (lx.behind first rest).cursor.pos) :
        (lx.behind first rest).Hollowed start :=
      stream_hollowed (lx.behind first rest) start rfl (on_after on _) h onward
    have fresh := later _ fun _ => Nat.le_refl _
    by_cases closing : first = '\x7d' ∧ lx.hole = some 0
    · obtain ⟨rfl, hole⟩ := closing
      exact hollowed_closing pending ahead on (begun (by rw [hole]; rfl)) hole now fresh
    · rcases scan_level now with level | ⟨hole, rfl, -⟩ | ⟨hole, rfl⟩
      · cases hole : lx.hole with
        | none => exact hollowed_outside pending ahead on hole level fresh
        | some braces =>
          have within : lx.hole.isSome = true := by
            rw [hole]
            rfl
          have later' := later start fun _ => (begun within).trans hpos
          exact hollowed_inside pending ahead on (begun within) within level closing later'
      · exact hollowed_opening pending ahead on hole now fresh
      · exact absurd ⟨rfl, hole⟩ closing
termination_by lx.cursor.ahead.length
decreasing_by exact ahead_after_lt ahead _

/-! ### Marks and braces -/

/-- The hole that the lexer stands in begins at `start`, behind a mark. -/
def Opened (lx : Lexer) (start : Nat) : Prop :=
  ∃ before code, lx.source.chars = before ++ ['$', '\x7b'] ++ code ++ lx.cursor.ahead ∧
    start = byteLength before + 2 ∧ lx.cursor.pos = start + byteLength code

theorem Opened.behind (h : lx.Opened start) (first : Char) (rest : List Char) :
    (lx.behind first rest).Opened start := by
  obtain ⟨before, code, hchars, hstart, hpos⟩ := h
  refine ⟨before, code ++ lx.taken (lx.scan first rest), ?_, hstart, ?_⟩
  · show lx.source.chars = _
    rw [hchars, ← List.append_assoc, List.append_assoc _ (lx.taken _)]
    show _ = _ ++ (lx.cursor.ahead.take _ ++ lx.cursor.ahead.drop _)
    rw [List.take_append_drop]
  · show lx.cursor.pos + byteLength (lx.taken (lx.scan first rest)) = _
    rw [hpos, Text.byteLength_append, Nat.add_assoc]

theorem templateText_marked {resumed : Bool} (h : (lx.templateText rest resumed).hole.isSome = true) :
    ∃ text, rest.take (lx.templateText rest resumed).length = text ++ ['$', '\x7b'] := by
  obtain ⟨text, stop, more, rfl, -, hscan⟩ := lx.templateText_eq rest resumed
  rw [hscan] at h ⊢
  cases stop with
  | backtick | input => cases h
  | hole => exact ⟨text, List.take_length_add_append 2⟩

/-- Where a look enters a hole, a mark stands before. -/
theorem opened_of_entered (ahead : lx.cursor.ahead = first :: rest) (on : lx.spot.On lx.source)
    (outside : lx.hole = none ∨ first = '\x7d' ∧ lx.hole = some 0)
    (entered : (lx.scan first rest).hole.isSome = true) :
    (lx.behind first rest).Opened (lx.behind first rest).cursor.pos := by
  have marked : ∃ text, rest.take (lx.scan first rest).length = text ++ ['$', '\x7b'] := by
    rcases outside with hole | ⟨rfl, hole⟩
    · rcases lx.scan_cases first rest with simple | ⟨-, hscan⟩ | ⟨k, -, hscan⟩
      · rw [simple.hole, hole] at entered
        cases entered
      · rw [hscan, template, hole] at entered ⊢
        exact templateText_marked entered
      · cases hafter : k.holeAfter? lx.hole with
        | some hole' =>
          rw [hscan, symbol_of_holeAfter? hafter, Kind.isSome_of_holeAfter? hafter, hole] at entered
          cases entered
        | none =>
          have inside := (Kind.holeAfter?_eq_none hafter).2
          rw [hole] at inside
          cases inside
    · have hscan : lx.scan '\x7d' rest = lx.templateText rest true := symbol_closing hole rest
      rw [hscan] at entered ⊢
      exact templateText_marked entered
  obtain ⟨text, htext⟩ := marked
  obtain ⟨past, hchars, hpos⟩ := on
  have htaken : lx.taken (lx.scan first rest) = first :: text ++ ['$', '\x7b'] := by
    rw [taken, ahead, List.take_succ_cons, htext, List.cons_append]
  refine ⟨past ++ first :: text, [], ?_, ?_, rfl⟩
  · show lx.source.chars = _
    rw [hchars, List.append_nil, List.append_assoc past, ← htaken, List.append_assoc]
    exact congrArg (past ++ ·) (List.take_append_drop _ _).symm
  · show lx.cursor.pos + byteLength (lx.taken (lx.scan first rest)) = _
    rw [htaken, Text.byteLength_append, Text.byteLength_append, hpos, ← Nat.add_assoc]
    rfl

theorem holes_marked (lx : Lexer) (start : Nat) (on : lx.spot.On lx.source)
    (opened : lx.hole.isSome = true → lx.Opened start) : ∀ hole ∈ lx.holes start, hole.Marked lx.source := by
  cases ahead : lx.cursor.ahead with
  | nil =>
    rw [holes_of_nil ahead]
    exact List.forall_mem_nil _
  | cons first rest =>
    have later (start : Nat) (h : (lx.behind first rest).hole.isSome = true → (lx.behind first rest).Opened start) :=
      holes_marked (lx.behind first rest) start (on_after on _) h
    rw [holes_of_cons ahead]
    split
    · obtain ⟨rfl, hole⟩ := ‹first = '\x7d' ∧ lx.hole = some 0›
      obtain ⟨before, code, hchars, hstart, hpos⟩ := opened (by rw [hole]; rfl)
      refine List.forall_mem_cons.mpr ⟨⟨before, code, rest, ahead ▸ hchars, by rw [hpos, hstart]⟩, ?_⟩
      exact later _ (opened_of_entered ahead on (.inr ⟨rfl, hole⟩))
    · cases hole : lx.hole with
      | none => exact later _ (opened_of_entered ahead on (.inl hole))
      | some braces => exact later _ fun _ => (opened (by rw [hole]; rfl)).behind first rest
termination_by lx.cursor.ahead.length
decreasing_by exact ahead_after_lt ahead _

end Lexer

/-- The holes of a source stand between their marks and braces. -/
theorem Source.holes_marked (source : Source) : ∀ hole ∈ source.holes, hole.Marked source :=
  (Lexer.start source).holes_marked 0 ⟨[], rfl, rfl⟩ fun h => by cases h

/-- The tokens of a text with which nothing is wrong, and its holes. -/
theorem TokenStream.ofSource_hollow {source : Source} (clean : (ofSource source).errors = []) :
    Hollow (ofSource source).toList source.holes :=
  ((Lexer.start source).stream_hollowed 0 rfl ⟨[], rfl, rfl⟩ (fun h => by cases h) clean).hollow

end BraceLang
