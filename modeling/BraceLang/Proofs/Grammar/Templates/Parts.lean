import BraceLang.Proofs.Grammar.Templates
import BraceLang.Proofs.Grammar.Termination

/-! The parts of a template. Each step of the loop over a template takes text or the code of an expression, and the
    code that it takes lies in one hole: it starts there, and it cannot go on behind the hole without a token of
    the template (`Hollow.held`). So what is made of the tokens is threaded through the holes
    (`HollowText.Threaded`), and stays so when more tokens and parts are put behind. -/

namespace BraceLang.Grammar

variable {x : HollowText} {r : Rules} {s t u : State} {run more : List Lexed} {opening closing : Lexed}
  {parts others : List Node} {p : Node}

/-! ### Tokens and the parts made of them -/

namespace HollowText

theorem hollow_of_infix (x : HollowText) {ts : List Lexed} (h : ts <:+: x.tokens) :
    Hollow (ts.map (·.token)) x.holes := x.hollow.of_infix (h.map _)

theorem stands_of_infix (x : HollowText) {ts : List Lexed} (h : ts <:+: x.tokens) :
    ∀ t ∈ ts.map (·.token), t.range.start.pos ≤ t.range.stop.pos :=
  List.forall_mem_map.mpr fun lexed hlexed => x.ordered.start_le_stop lexed (h.subset hlexed)

/-- The parts made of the tokens behind the opening of a template. -/
structure Threaded (x : HollowText) (run : List Lexed) (parts : List Node) : Prop where
  inside : ∀ p ∈ parts, Inside x.source run p.range
  ordered : parts.Pairwise fun p q => p.range.stop.pos ≤ q.range.start.pos
  placed : ∀ p ∈ parts, (∃ text, p.shape = .str text) ∧ (∀ h ∈ x.holes, h.Apart p.range) ∨
    ∃ h ∈ x.holes, (∃ t ∈ run, h.contains t.token.range = true) ∧ h.contains p.range = true
  filled : ∀ t ∈ run, t.token.kind = .templateText ∨
    ∃ h ∈ x.holes, h.contains t.token.range = true ∧ ∃ p ∈ parts, h.contains p.range = true

namespace Threaded

theorem nil : x.Threaded [] [] := ⟨List.forall_mem_nil _, .nil, List.forall_mem_nil _, List.forall_mem_nil _⟩

theorem append (h : x.Threaded run parts) (h' : x.Threaded more others) (ordered : Ordered x.source (run ++ more)) :
    x.Threaded (run ++ more) (parts ++ others) where
  inside := List.forall_mem_append.mpr
    ⟨fun p hp => (h.inside p hp).mono (List.subset_append_left run more),
      fun p hp => (h'.inside p hp).mono (List.subset_append_right run more)⟩
  ordered := by
    refine List.pairwise_append.mpr ⟨h.ordered, h'.ordered, fun p hp q hq => ?_⟩
    obtain ⟨t, ht, hstop⟩ := (h.inside p hp).stops
    obtain ⟨u, hu, hstart⟩ := (h'.inside q hq).starts
    have hbetween := (List.pairwise_append.mp ordered.apart).2.2 t ht u hu
    omega
  placed := List.forall_mem_append.mpr
    ⟨fun p hp => (h.placed p hp).imp_right fun ⟨hole, hh, ⟨t, ht, hc⟩, hp⟩ =>
        ⟨hole, hh, ⟨t, List.mem_append_left more ht, hc⟩, hp⟩,
      fun p hp => (h'.placed p hp).imp_right fun ⟨hole, hh, ⟨t, ht, hc⟩, hp⟩ =>
        ⟨hole, hh, ⟨t, List.mem_append_right run ht, hc⟩, hp⟩⟩
  filled := List.forall_mem_append.mpr
    ⟨fun t ht => (h.filled t ht).imp_right fun ⟨hole, hh, hc, p, hp, hcp⟩ =>
        ⟨hole, hh, hc, p, List.mem_append_left others hp, hcp⟩,
      fun t ht => (h'.filled t ht).imp_right fun ⟨hole, hh, hc, p, hp, hcp⟩ =>
        ⟨hole, hh, hc, p, List.mem_append_right parts hp, hcp⟩⟩

/-- Text that is dropped. -/
theorem dropped {lexed : Lexed} (hk : lexed.token.kind = .templateText) : x.Threaded [lexed] [] :=
  ⟨List.forall_mem_nil _, .nil, List.forall_mem_nil _, List.forall_mem_singleton.mpr (.inl hk)⟩

/-- Text that is a part. -/
theorem text {lexed : Lexed} (hx : lexed ∈ x.tokens) (hk : lexed.token.kind = .templateText) {text : String}
    (hshape : p.shape = .str text) (hrange : p.range = lexed.token.range) : x.Threaded [lexed] [p] where
  inside := by
    refine List.forall_mem_singleton.mpr ?_
    rw [hrange]
    exact .token (x.ordered.sublist (List.singleton_sublist.mpr hx)) (List.mem_singleton_self lexed)
  ordered := List.pairwise_singleton _ p
  placed := by
    refine List.forall_mem_singleton.mpr (.inl ⟨⟨text, hshape⟩, ?_⟩)
    rw [hrange]
    exact x.hollow.apart lexed.token (List.mem_map_of_mem hx) (hk ▸ rfl)
  filled := List.forall_mem_singleton.mpr (.inl hk)

/-- The code of an expression, which lies in a hole. -/
theorem code {hole : Range} (hmore : more ⊆ x.tokens) (hne : more ≠ []) (hh : hole ∈ x.holes)
    (held : ∀ t ∈ more, hole.contains t.token.range = true) (inside : Inside x.source more p.range) :
    x.Threaded more [p] := by
  have hpart : hole.contains p.range = true := by
    obtain ⟨t, ht, hstart⟩ := inside.starts
    obtain ⟨u, hu, hstop⟩ := inside.stops
    obtain ⟨-, hstart', -⟩ := Range.contains_iff.mp (held t ht)
    obtain ⟨hsource, -, hstop'⟩ := Range.contains_iff.mp (held u hu)
    refine Range.contains_iff.mpr ⟨?_, hstart'.trans hstart, hstop.trans hstop'⟩
    rw [hsource, x.ordered.source_eq u (hmore hu), inside.source_eq]
  obtain ⟨t, ht⟩ := List.exists_mem_of_ne_nil more hne
  exact {
    inside := List.forall_mem_singleton.mpr inside
    ordered := List.pairwise_singleton _ p
    placed := List.forall_mem_singleton.mpr (.inr ⟨hole, hh, ⟨t, ht, held t ht⟩, hpart⟩)
    filled := fun t ht => .inr ⟨hole, hh, held t ht, p, List.mem_singleton_self p, hpart⟩ }

end Threaded

/-! ### Templates among the tokens -/

/-- A template among the tokens of a text, with the tokens between its two ends. -/
structure Frames (x : HollowText) (opening : Lexed) (run : List Lexed) (closing : Lexed) (range : Range) : Prop where
  tokens : ∃ before after, x.tokens = before ++ opening :: (run ++ closing :: after)
  opens : opening.token.kind.isTemplate = true
  closes : closing.token.kind.isTemplate = true
  source_eq : range.source = x.source
  start_eq : range.start.pos = opening.token.range.start.pos
  stop_eq : range.stop.pos = closing.token.range.stop.pos

namespace Frames
variable {range hole : Range}

/-- What is closed behind the end of a template that began it has its range. -/
theorem of_closed {before after : List Lexed} (htokens : x.tokens = before ++ opening :: (run ++ closing :: after))
    (hopen : opening.token.kind = .templateOpen) (hclose : closing.token.kind = .templateClose)
    (hlast : s.lastRange = some closing.token.range) :
    x.Frames opening run closing (s.rangeFrom opening.token.range) := by
  have hsublist : List.Sublist (opening :: (run ++ [closing])) x.tokens := by
    have hprefix : opening :: (run ++ [closing]) <+: opening :: (run ++ closing :: after) :=
      ⟨after, by rw [List.cons_append, List.append_assoc, List.singleton_append]⟩
    exact htokens ▸ hprefix.sublist.trans (List.sublist_append_right before _)
  have ordered := x.ordered.sublist hsublist
  have hends : (opening :: (run ++ [closing])).getLast? = some closing := by
    rw [← List.cons_append, List.getLast?_concat]
  have spans := rangeFrom_spans ordered hends hlast
  obtain ⟨t, ht, hstart⟩ := spans.inside.starts
  obtain ⟨u, hu, hstop⟩ := spans.inside.stops
  have hfirst := ordered.first_le ht
  have hfinal : u.token.range.stop.pos ≤ closing.token.range.stop.pos := by
    rw [← List.cons_append] at ordered hu
    exact ordered.le_last hu
  exact {
    tokens := ⟨before, after, htokens⟩
    opens := hopen ▸ rfl
    closes := hclose ▸ rfl
    source_eq := spans.inside.source_eq
    start_eq := Nat.le_antisymm (spans.start_le opening List.mem_cons_self) (hfirst.trans hstart)
    stop_eq := Nat.le_antisymm (hstop.trans hfinal)
      (spans.le_stop closing (List.mem_cons_of_mem opening List.mem_concat_self)) }

theorem mem_tokens (f : x.Frames opening run closing range) {t : Lexed} (ht : t ∈ opening :: (run ++ [closing])) :
    t ∈ x.tokens := by
  obtain ⟨before, after, htokens⟩ := f.tokens
  have taken : opening :: (run ++ [closing]) <+: opening :: (run ++ closing :: after) :=
    ⟨after, by rw [List.cons_append, List.append_assoc, List.singleton_append]⟩
  exact htokens ▸ List.mem_append_right before (taken.subset ht)

theorem opening_mem (f : x.Frames opening run closing range) : opening ∈ x.tokens := f.mem_tokens List.mem_cons_self

theorem closing_mem (f : x.Frames opening run closing range) : closing ∈ x.tokens :=
  f.mem_tokens (List.mem_cons_of_mem opening List.mem_concat_self)

theorem run_subset (f : x.Frames opening run closing range) : run ⊆ x.tokens :=
  fun _ ht => f.mem_tokens (List.mem_cons_of_mem opening (List.mem_append_left _ ht))

/-- A hole with a token of a template in it lies in the template. -/
theorem contains_hole (f : x.Frames opening run closing range) (hh : hole ∈ x.holes) {t : Lexed} (ht : t ∈ run)
    (hc : hole.contains t.token.range = true) : range.contains hole = true := by
  obtain ⟨before, after, htokens⟩ := f.tokens
  obtain ⟨hopening, rest⟩ := List.pairwise_cons.mp (htokens ▸ x.ordered).right.apart
  have hbefore := hopening t (List.mem_append_left _ ht)
  have hafter := (List.pairwise_append.mp rest).2.2 t ht closing List.mem_cons_self
  have hfirst := x.hollow.apart opening.token (List.mem_map_of_mem f.opening_mem) f.opens hole hh
  have hlast := x.hollow.apart closing.token (List.mem_map_of_mem f.closing_mem) f.closes hole hh
  have hopens := x.ordered.start_le_stop opening f.opening_mem
  have hcloses := x.ordered.start_le_stop closing f.closing_mem
  have hstands := x.ordered.start_le_stop t (f.run_subset ht)
  have hstart_eq := f.start_eq
  have hstop_eq := f.stop_eq
  obtain ⟨hsource, hstart, hstop⟩ := Range.contains_iff.mp hc
  refine Range.contains_iff.mpr ⟨?_, ?_, ?_⟩
  · rw [hsource, x.ordered.source_eq t (f.run_subset ht), f.source_eq]
  · rcases hfirst with h | h <;> omega
  · rcases hlast with h | h <;> omega

/-- What stands between the two ends of a template is a token of it. -/
theorem mem_of_between (f : x.Frames opening run closing range) {t : Lexed} (ht : t ∈ x.tokens)
    (hstart : range.start.pos < t.token.range.start.pos) (hstop : t.token.range.stop.pos < range.stop.pos) :
    t ∈ run := by
  obtain ⟨before, after, htokens⟩ := f.tokens
  have ordered := htokens ▸ x.ordered
  have hstands := x.ordered.start_le_stop t ht
  rw [f.start_eq] at hstart
  rw [f.stop_eq] at hstop
  rw [htokens, List.mem_append, List.mem_cons, List.mem_append, List.mem_cons] at ht
  rcases ht with ht | rfl | ht | rfl | ht
  · have hbefore := (List.pairwise_append.mp ordered.apart).2.2 t ht opening List.mem_cons_self
    omega
  · exact absurd hstart (Nat.lt_irrefl _)
  · exact ht
  · exact absurd hstop (Nat.lt_irrefl _)
  · have rest := (List.pairwise_cons.mp ordered.right.apart).2
    have hafter := (List.pairwise_cons.mp (List.pairwise_append.mp rest).2.1).1 t ht
    omega

/-- A token in a hole of a template stands between the two ends of the template. -/
theorem mem_of_contains (f : x.Frames opening run closing range) (hh : hole ∈ x.holes)
    (hrange : range.contains hole = true) {t : Lexed} (ht : t ∈ x.tokens)
    (hc : hole.contains t.token.range = true) : t ∈ run := by
  have hfirst := x.hollow.apart opening.token (List.mem_map_of_mem f.opening_mem) f.opens hole hh
  have hlast := x.hollow.apart closing.token (List.mem_map_of_mem f.closing_mem) f.closes hole hh
  have hopens := x.ordered.start_le_stop opening f.opening_mem
  have hcloses := x.ordered.start_le_stop closing f.closing_mem
  have hstands := x.ordered.start_le_stop t ht
  obtain ⟨-, hstart, hstop⟩ := Range.contains_iff.mp hrange
  obtain ⟨-, hstart', hstop'⟩ := Range.contains_iff.mp hc
  have hstart_eq := f.start_eq
  have hstop_eq := f.stop_eq
  refine f.mem_of_between ht ?_ ?_
  · rcases hfirst with h | h <;> omega
  · rcases hlast with h | h <;> omega

theorem threads (f : x.Frames opening run closing range) (h : x.Threaded run parts) : x.Threads range parts where
  ordered := h.ordered
  placed p hp := (h.placed p hp).imp_right fun ⟨hole, hh, ⟨t, ht, hc⟩, hpart⟩ =>
    ⟨hole, hh, f.contains_hole hh ht hc, ⟨t, f.run_subset ht, hc⟩, hpart⟩
  filled hole hh hrange := by
    rintro ⟨t, ht, hc⟩
    have stands := x.ordered.start_le_stop t ht
    have code := x.hollow.code_of_contains (List.mem_map_of_mem ht) stands hh hc
    rcases h.filled t (f.mem_of_contains hh hrange ht hc) with htext | ⟨hole', hh', hc', filled⟩
    · rw [htext] at code
      cases code
    · rwa [x.hollow.hole_unique hh hh' stands hc hc']
  covered t ht hstart hstop :=
    (h.filled t (f.mem_of_between ht hstart hstop)).imp_right fun ⟨hole, hh, hc, _⟩ => ⟨hole, hh, hc⟩

end Frames

end HollowText

/-! ### The loop -/

/-- A place in a template: the tokens behind its opening and the parts made of them. What was taken last opens the
    template, is text of it or lies in a hole. -/
structure HollowText.Within (x : HollowText) (opening : Lexed) (run : List Lexed) (parts : Array Node) (s : State) :
    Prop where
  ahead : opening :: (run ++ s.ahead) <:+ x.tokens
  idle : s.pendingAsync = none
  threaded : x.Threaded run parts.toList
  sound : x.AllSound parts.toList
  last : ∀ t ∈ (opening :: run).getLast?, (t.token.kind = .templateOpen ∨ t.token.kind = .templateText) ∨
    ∃ h ∈ x.holes, h.contains t.token.range = true

namespace HollowText.Within
variable {items result : Array Node}

theorem infix_ahead (w : x.Within opening run items s) (h : s.ahead = more ++ t.ahead) : more <:+: x.tokens := by
  obtain ⟨before, hbefore⟩ := w.ahead
  refine ⟨before ++ opening :: run, t.ahead, ?_⟩
  rw [← hbefore, h]
  simp only [List.append_assoc, List.cons_append]

/-- The code that is taken lies in a hole. -/
theorem held {first : Lexed} (w : x.Within opening run items s) (h : s.ahead = first :: more ++ t.ahead)
    (hk : first.token.kind.isSeam = false) (hfirst : OpensFirst ((first :: more).map (·.token))) :
    ∃ hole ∈ x.holes, ∀ t ∈ first :: more, hole.contains t.token.range = true := by
  obtain ⟨last, hlast⟩ : ∃ last, last ∈ (opening :: run).getLast? :=
    Option.isSome_iff_exists.mp (List.getLast?_isSome.mpr (List.cons_ne_nil opening run))
  have pair : [last, first] <:+: x.tokens := by
    obtain ⟨before, hbefore⟩ := w.ahead
    obtain ⟨init, hinit⟩ := List.getLast?_eq_some_iff.mp hlast
    refine ⟨before ++ init, more ++ t.ahead, ?_⟩
    rw [← hbefore, h, ← List.cons_append, hinit]
    simp only [List.append_assoc, List.cons_append, List.nil_append]
  have link := (List.isChain_cons_cons.mp (x.hollow_of_infix pair).linked).1
  have hopen : ∃ hole ∈ x.holes, hole.contains first.token.range = true := by
    rcases w.last last hlast with hk' | ⟨hole, hh, hc⟩
    · exact (link.enters hk').resolve_left (by rw [hk]; exact Bool.false_ne_true)
    · exact ⟨hole, hh, (link.stays hole hh hc).resolve_left (by rw [hk]; exact Bool.false_ne_true)⟩
  obtain ⟨hole, hh, hc⟩ := hopen
  have hmore := w.infix_ahead h
  have held := (x.hollow_of_infix hmore).held (x.stands_of_infix hmore) hfirst hh hc
  exact ⟨hole, hh, fun u hu => held u.token (List.mem_map_of_mem hu)⟩

/-- What was taken last and the place behind it. -/
theorem extend {others : List Node} (w : x.Within opening run items s) (h : s.ahead = more ++ t.ahead)
    (hidle : t.pendingAsync = none) (hthreaded : x.Threaded more others) (hsound : x.AllSound others)
    (hitems : result.toList = items.toList ++ others) (hne : more ≠ [])
    (hlast : ∀ t ∈ more, (t.token.kind = .templateOpen ∨ t.token.kind = .templateText) ∨
      ∃ h ∈ x.holes, h.contains t.token.range = true) : x.Within opening (run ++ more) result t where
  ahead := by
    rw [List.append_assoc, ← h]
    exact w.ahead
  idle := hidle
  threaded := by
    rw [hitems]
    refine w.threaded.append hthreaded (x.ordered.sublist ?_)
    have hahead := w.ahead.sublist
    rw [h, ← List.append_assoc] at hahead
    exact ((List.sublist_append_left _ _).trans (List.sublist_cons_self _ _)).trans hahead
  sound := hitems ▸ w.sound.append hsound
  last u hu := by
    rw [← List.cons_append, List.getLast?_append_of_ne_nil _ hne] at hu
    exact hlast u (List.mem_of_getLast? hu)

/-- Text is dropped or becomes a part. -/
theorem text_step (w : x.Within opening run items s) (hk : s.kind = .templateText) {step : ForInStep (Array Node)}
    (hrun : templateStep r items s = .ok step t) : ∃ result more, step = .yield result ∧ s.ahead = more ++ t.ahead ∧
      x.Within opening (run ++ more) result t := by
  obtain ⟨lexed, rest, hahead, hcurrent⟩ := State.ahead_of_kind_ne (hk ▸ Kind.noConfusion : s.kind ≠ .eof)
  have htext : lexed.token.kind = .templateText := hcurrent ▸ hk
  have htaken : s.ahead = [lexed] ++ s.advance.ahead := by
    show s.ahead = lexed :: s.ahead.tail
    rw [hahead, List.tail_cons]
  have hlast : ∀ t ∈ [lexed], (t.token.kind = .templateOpen ∨ t.token.kind = .templateText) ∨
      ∃ h ∈ x.holes, h.contains t.token.range = true := List.forall_mem_singleton.mpr (.inl (.inr htext))
  rw [templateStep, kind_bind, hk] at hrun
  dsimp only at hrun
  rw [advance_bind] at hrun
  rcases ite_eq_ok.mp hrun with ⟨-, hrun⟩ | ⟨-, hrun⟩
  · obtain ⟨rfl, rfl⟩ := pure_eq_ok.mp hrun
    exact ⟨items, [lexed], rfl, htaken, w.extend htaken w.idle (.dropped htext) .nil (List.append_nil _).symm
      (List.cons_ne_nil _ _) hlast⟩
  · obtain ⟨n, u, hn, hrun⟩ := bind_eq_ok.mp hrun
    obtain ⟨rfl, rfl⟩ := pure_eq_ok.mp hrun
    obtain ⟨rfl, rfl⟩ := node_eq_ok.mp hn
    have hmem : lexed ∈ x.tokens := (w.infix_ahead htaken).subset (List.mem_singleton_self lexed)
    have hthreaded : x.Threaded [lexed] [⟨s.advance.nextId, s.current.range, none, .str s.current.text⟩] :=
      .text hmem htext rfl (congrArg Token.range hcurrent)
    have hsound : x.Sound ⟨s.advance.nextId, s.current.range, none, .str s.current.text⟩ :=
      .mk (fun _ hparts => by cases hparts) (List.forall_mem_nil _)
    exact ⟨_, [lexed], rfl, htaken, w.extend htaken w.idle hthreaded (.single hsound) Array.toList_push
      (List.cons_ne_nil _ _) hlast⟩

/-- The code of an expression becomes a part. -/
theorem code_step (h : r.Spare x) (w : x.Within opening run items s) (hk : s.kind.isSeam = false) {n : Node}
    (hrun : withStructLiterals true r.expression s = .ok n t) (hquiet : t.complaints = 0) :
    ∃ more, s.ahead = more ++ t.ahead ∧ x.Within opening (run ++ more) (items.push n) t := by
  obtain ⟨u, hu, rfl⟩ := withStructLiterals_eq_ok.mp hrun
  have hahead : s.ahead <:+ x.tokens := by
    refine List.IsSuffix.trans ?_ w.ahead
    rw [← List.cons_append]
    exact List.suffix_append _ _
  have hspared := (h.expression True { s with structLiterals := true } hahead).2
  rw [hu] at hspared
  obtain ⟨hidle, ⟨taken, htaken, hfirst⟩, hsound⟩ := hspared (.inl w.idle) trivial hquiet
  replace htaken : s.ahead = taken ++ u.ahead := htaken
  have hordered : Ordered x.source s.ahead := x.ordered.sublist hahead.sublist
  obtain ⟨more, hmore, -, hplaced⟩ := (h.settles.expression { s with structLiterals := true } hordered (.inl w.idle)
    n u hu).placed
  obtain rfl : taken = more := List.append_cancel_right (htaken.symm.trans hmore)
  have hinside : Inside x.source taken n.range := by
    rw [show State.pendingAsync _ = none from w.idle] at hplaced
    exact hplaced.inside n (List.mem_singleton_self n)
  cases htokens : taken with
  | nil => exact absurd htokens (hplaced.begun rfl)
  | cons first rest =>
    rw [htokens] at htaken hfirst hinside
    have hkind : first.token.kind.isSeam = false := by
      rw [State.kind, State.current, htaken] at hk
      exact hk
    obtain ⟨hole, hh, held⟩ := w.held (t := u) htaken hkind hfirst
    have hcode : x.Threaded (first :: rest) [n] :=
      .code (w.infix_ahead (t := u) htaken).subset (List.cons_ne_nil _ _) hh held hinside
    exact ⟨first :: rest, htaken, w.extend htaken hidle hcode (.single hsound) Array.toList_push
      (List.cons_ne_nil _ _) fun t ht => .inr ⟨hole, hh, held t ht⟩⟩

/-- A step of the loop ends at the end of the template or goes on within it. -/
theorem step (h : r.Spare x) (w : x.Within opening run items s) {step : ForInStep (Array Node)}
    (hrun : templateStep r items s = .ok step t) (hquiet : t.complaints = 0) :
    (∃ closing, step = .done items ∧ s.ahead = closing :: t.ahead ∧ closing.token.kind = .templateClose ∧
      t.lastRange = some closing.token.range ∧ t.pendingAsync = none) ∨
    ∃ result more, step = .yield result ∧ s.ahead = more ++ t.ahead ∧ x.Within opening (run ++ more) result t := by
  by_cases htext : s.kind = .templateText
  · exact .inr (w.text_step htext hrun)
  rw [templateStep, kind_bind] at hrun
  generalize hk : s.kind = k at hrun htext
  split at hrun
  · obtain ⟨closing, rest, hahead, hcurrent⟩ := State.ahead_of_kind_ne (s := s) (hk ▸ Kind.noConfusion)
    rw [advance_bind] at hrun
    obtain ⟨rfl, rfl⟩ := pure_eq_ok.mp hrun
    refine .inl ⟨closing, rfl, ?_, hcurrent ▸ hk, ?_, w.idle⟩
    · show s.ahead = closing :: s.ahead.tail
      rw [hahead, List.tail_cons]
    · rw [← hcurrent]
      rfl
  · exact absurd rfl htext
  · exact (unexpected_eq_ok.mp hrun).elim
  · rename_i hclose _ _
    obtain ⟨n, u, hn, hrun⟩ := bind_eq_ok.mp hrun
    obtain ⟨rfl, rfl⟩ := pure_eq_ok.mp hrun
    have hseam : s.kind.isSeam = false := by
      rw [hk]
      unfold Kind.isSeam
      split
      · exact absurd rfl htext
      · exact absurd rfl hclose
      · rfl
    obtain ⟨more, hmore, hwithin⟩ := w.code_step h hseam hn hquiet
    exact .inr ⟨_, more, rfl, hmore, hwithin⟩

end HollowText.Within

/-- The loop over a template ends at the end of the template, with all tokens before it threaded. -/
theorem Loop.threaded (h : r.Spare x) {items result : Array Node} {o : Outcome (Array Node)}
    (loop : Loop (templateStep r) items s o) (hok : o = .ok result u) : Moves s u ∧
      ∀ run, x.Within opening run items s → u.complaints = 0 → ∃ more closing,
        s.ahead = more ++ closing :: u.ahead ∧ closing.token.kind = .templateClose ∧
        u.lastRange = some closing.token.range ∧ u.pendingAsync = none ∧
        x.Threaded (run ++ more) result.toList ∧ x.AllSound result.toList := by
  have moves {items : Array Node} {s t : State} {step : ForInStep (Array Node)}
      (hstep : templateStep r items s = .ok step t) : Moves s t :=
    Agrees.moves (Congruence.Rel.templateStep (h.moves s.depth).related items) hstep
  induction loop with
  | done hstep =>
    cases hok
    refine ⟨moves hstep, fun run w hquiet => ?_⟩
    rcases w.step h hstep hquiet with ⟨closing, hdone, hahead, hclose, hlast, hidle⟩ | ⟨_, _, hyield, -⟩
    · cases hdone
      refine ⟨[], closing, hahead, hclose, hlast, hidle, ?_, w.sound⟩
      rw [List.append_nil]
      exact w.threaded
    · cases hyield
  | again hstep _ ih =>
    obtain ⟨hmoves, hrest⟩ := ih hok
    refine ⟨(moves hstep).trans hmoves, fun run w hquiet => ?_⟩
    have hearlier := Nat.le_zero.mp (hquiet ▸ hmoves.complaints_le)
    rcases w.step h hstep hearlier with ⟨_, hdone, -⟩ | ⟨_, more, hyield, hahead, hwithin⟩
    · cases hdone
    · cases hyield
      obtain ⟨others, closing, hahead', hfacts⟩ := hrest _ hwithin hquiet
      refine ⟨more ++ others, closing, by rw [hahead, hahead', List.append_assoc], ?_⟩
      rwa [← List.append_assoc]
  | failed _ => cases hok

/-- A template is taken from its opening to its end. -/
theorem Sparing.template {pre : Prop} (h : r.Spare x) : Spares x pre x.Sound s (template r s) := by
  intro hs
  refine ⟨(Congruence.Rel.template (h.moves s.depth).related s rfl).2, fun hidle _ hquiet => ?_⟩
  cases hrun : Grammar.template r s with
  | error err t => trivial
  | ok n t =>
    rw [hrun] at hquiet
    simp only [Grammar.template, here_bind, bind_eq_ok, expect_eq_ok, close_eq_ok] at hrun
    obtain ⟨_, _, ⟨hopen, -, rfl⟩, items, u, hitems, rfl, rfl⟩ := hrun
    obtain ⟨opening, rest, hahead, hcurrent⟩ := State.ahead_of_kind_ne (hopen ▸ Kind.noConfusion : s.kind ≠ .eof)
    have hkind : opening.token.kind = .templateOpen := hcurrent ▸ hopen
    have hadvance : s.advance.ahead = rest := by
      show s.ahead.tail = rest
      rw [hahead, List.tail_cons]
    have hwithin : x.Within opening [] #[] s.advance := {
      ahead := by rwa [List.nil_append, hadvance, ← hahead]
      idle := hidle
      threaded := .nil
      sound := .nil
      last := fun t ht => by cases ht; exact .inl (.inl hkind) }
    have hloop := h.reads.loopsAdvance.template.loop #[] s.advance
    rw [hitems] at hloop
    obtain ⟨run, closing, hrest, hclose, hlast, hidle', hthreaded, hsound⟩ :=
      (hloop.threaded h rfl).2 [] hwithin hquiet
    rw [hadvance] at hrest
    rw [List.nil_append] at hthreaded
    have htaken : s.ahead = opening :: (run ++ [closing]) ++ u.ahead := by
      rw [hahead, hrest, List.cons_append, List.append_assoc, List.singleton_append]
    refine ⟨hidle', ⟨_, htaken, ?_⟩, .mk ?_ hsound⟩
    · rw [List.map_cons]
      exact .opening hkind
    · rintro parts ⟨⟩
      obtain ⟨before, hbefore⟩ := hs
      have htokens : x.tokens = before ++ opening :: (run ++ closing :: u.ahead) := by
        rw [← hbefore, hahead, hrest]
      rw [hcurrent]
      exact (HollowText.Frames.of_closed htokens hkind hclose hlast).threads hthreaded

end BraceLang.Grammar
