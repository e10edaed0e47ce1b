import BraceLang.Proofs.Grammar.Abreast.Statements
import BraceLang.Proofs.Grammar.Blocks
import BraceLang.Proofs.Grammar.Lookahead

/-! Expressions before closers. An expression that is read up to a closer with nothing to report is read before
    every other closer too, and is the same there up to ranges, unless its last token is a `yield` that the
    other closer does not end.

    Where the parser stops at the closer, everything before it has been taken and the end of the text is in
    sight. So nothing is wrong with the text, and the tokens of both texts are the same up to the closers. -/

namespace BraceLang

open Text (byteLength)

namespace Grammar

variable {source source' : Source} {w : String} {c d k : Kind} {e : Node} {s t : State} {ls : List Lexeme}

/-! ### Texts with a closer -/

theorem chars_closedBy (h : source.text = closedBy w k) : source.chars = w.toList ++ ' ' :: k.text.toList := by
  rw [Source.chars, h, closedBy, String.toList_append, String.toList_append, List.append_assoc]
  rfl

theorem length_closedBy (h : source.text = closedBy w k) :
    source.length = byteLength w.toList + 1 + byteLength k.text.toList := by
  rw [source.length_eq, chars_closedBy h, Text.byteLength_append, Nat.add_assoc]
  rfl

theorem byteLength_closer_le (hk : k.closes = true) : byteLength k.text.toList ≤ 1 := by
  have closers : ∀ k : Kind, k.closes = true → byteLength k.text.toList ≤ 1 := Kind.forall_closes.mpr (by decide)
  exact closers k hk

/-- The tokens of two texts that differ in the closer behind them. -/
theorem ofSource_beside (hc : c.closes = true) (hd : d.closes = true) (hsource : source.text = closedBy w c)
    (hsource' : source'.text = closedBy w d) (clean : (TokenStream.ofSource source).errors = []) :
    ∃ ls k k', (TokenStream.ofSource source).Closes (byteLength w.toList) ls k ∧
      (TokenStream.ofSource source').Closes (byteLength w.toList) ls k' ∧
      (k = c ∧ k' = d ∨ k = .eof ∧ k' = .eof) := by
  have beside : (Lexer.start source).Beside (Lexer.start source') := ⟨rfl, rfl, rfl⟩
  exact Lexer.stream_beside hc hd beside rfl rfl (chars_closedBy hsource) (chars_closedBy hsource')
    ⟨[], rfl, rfl⟩ ⟨[], rfl, rfl⟩ (Nat.zero_add _) clean

/-! ### Stopping at a closer -/

/-- The closer `k` behind the text `w` is nearest, and nothing has been reported. -/
structure State.StopsAt (s : State) (w : String) (k : Kind) : Prop where
  quiet : s.log.toList = []
  kind : s.kind = k
  pos : s.current.range.start.pos = byteLength w.toList + 1

instance (s : State) (w : String) (k : Kind) : Decidable (s.StopsAt w k) :=
  decidable_of_iff (s.log.toList.isEmpty = true ∧ s.kind = k ∧ s.current.range.start.pos = byteLength w.toList + 1)
    ⟨fun ⟨quiet, kind, pos⟩ => ⟨List.isEmpty_iff.mp quiet, kind, pos⟩,
      fun ⟨quiet, kind, pos⟩ => ⟨List.isEmpty_iff.mpr quiet, kind, pos⟩⟩

namespace State.StopsAt

/-- Where a parser stops at a closer, the end is in sight. -/
theorem length_ahead_lt (h : s.StopsAt w c) (hc : c.closes = true) (hsource : source.text = closedBy w c)
    (hs : s.ahead <:+ (TokenStream.ofSource source).tokens) : s.ahead.length < lookahead := by
  obtain ⟨before, htokens⟩ := hs
  cases hahead : s.ahead with
  | nil => decide
  | cons lexed after =>
    have hcurrent : s.current = lexed.token := by rw [State.current, hahead]
    have hkind : lexed.token.kind = c := hcurrent ▸ h.kind
    have hlast : source.length ≤ lexed.token.range.start.pos + 1 := by
      rw [length_closedBy hsource, ← hcurrent, h.pos]
      exact Nat.add_le_add_left (byteLength_closer_le hc) _
    have hlist : (Lexer.start source).stream.toList =
        before.map (·.token) ++ lexed.token :: after.map (·.token) := by
      show (TokenStream.ofSource source).tokens.map _ = _
      rw [← htokens, hahead, List.map_append, List.map_cons]
    have hafter := Lexer.length_le_of_last rfl ⟨[], rfl, rfl⟩ hlist (hkind ▸ hc) hlast
    rw [List.length_map] at hafter
    exact Nat.lt_of_le_of_lt (Nat.succ_le_succ hafter) (by decide)

/-- All that stands before the closer has been taken. -/
theorem taken_eq {taken : List Lexed} (h : s.StopsAt w c)
    (hs : (TokenStream.ofSource source).tokens = taken ++ s.ahead)
    (closes : (TokenStream.ofSource source).Closes (byteLength w.toList) ls k) (hk : k = c ∨ k = .eof) :
    k = c ∧ taken.map (·.token.lexeme) = ls ∧ s.ahead.map (·.token.lexeme) = closing c := by
  obtain ⟨⟨ts, us, htokens, rfl, hclosing, hbefore, -⟩, -⟩ := closes
  have hlist : taken.map (·.token) ++ s.ahead.map (·.token) = ts ++ us := by
    rw [← htokens, TokenStream.toList, hs, List.map_append]
  suffices htaken : taken.map (·.token) = ts by
    have hahead : s.ahead.map (·.token.lexeme) = closing k := by
      rw [htaken] at hlist
      rw [← hclosing, ← List.append_cancel_left hlist, List.map_map]
      rfl
    have hkind : k = c := by
      rw [← h.kind, s.kind_eq_nearest, hahead, nearest_closing]
    refine ⟨hkind, ?_, hkind ▸ hahead⟩
    rw [← htaken, List.map_map]
    rfl
  obtain ⟨more, hts, hahead⟩ | ⟨more, htaken, hus⟩ := List.append_eq_append_iff.mp hlist
  · cases more with
    | nil => rw [hts, List.append_nil]
    | cons t more =>
      -- the nearest token would stand before the closer
      have hcurrent : s.current = t := by
        rw [State.current]
        cases hnear : s.ahead with
        | nil => rw [hnear] at hahead; cases hahead
        | cons lexed after =>
          rw [hnear, List.map_cons, List.cons_append] at hahead
          exact (List.cons.inj hahead).1
      have hpos := hbefore t (hts ▸ List.mem_append_right _ List.mem_cons_self)
      rw [← hcurrent, h.pos] at hpos
      exact absurd hpos (Nat.not_succ_le_self _)
  · cases more with
    | nil => rw [htaken, List.append_nil]
    | cons u more =>
      -- the closer would have been taken, and the end be nearest
      have hne : k ≠ .eof := by
        rintro rfl
        rw [hus] at hclosing
        cases hclosing
      rw [closing_of_ne hne, hus, List.cons_append, List.map_cons] at hclosing
      obtain ⟨-, hnone⟩ := List.append_eq_nil_iff.mp (List.map_eq_nil_iff.mp (List.cons.inj hclosing).2)
      have hend : c = .eof := h.kind.symm.trans (State.kind_of_ahead_nil (List.map_eq_nil_iff.mp hnone))
      exact absurd (hk.elim (·.trans hend) id) hne

end State.StopsAt

/-! ### The whole expression -/

/-- If an expression is read up to a closer with nothing to report, nothing is wrong with the text. -/
theorem errors_eq_nil (hc : c.closes = true) (hsource : source.text = closedBy w c)
    (hrun : expression (State.start (TokenStream.ofSource source)) = .ok e s) (h : s.StopsAt w c) :
    (TokenStream.ofSource source).errors = [] := by
  have conduct := Rules.within_conduct Area.everywhere nestingLimit
  obtain ⟨effects, heffects⟩ := Upholds.effects conduct.expression (State.start (TokenStream.ofSource source))
  obtain rfl : s = _ := (congrArg Outcome.stop hrun).symm.trans heffects
  have shows := (Ring.start_shows source).undergo effects
  have hahead : _ <:+ (TokenStream.ofSource source).tokens := shows.ahead ▸ List.drop_suffix _ _
  have hlexical := shows.lexical_of_end (h.length_ahead_lt hc hsource hahead)
  rw [h.quiet, List.filter_nil] at hlexical
  exact List.map_eq_nil_iff.mp hlexical.symm

/-- The tokens that an expression is read from close the braces that they open. -/
theorem expression_crosses (hrun : expression (State.start (TokenStream.ofSource source)) = .ok e s)
    (quiet : s.log.toList = []) : Crosses (State.start (TokenStream.ofSource source)) 0 0 s := by
  let x : Reading := ⟨(TokenStream.ofSource source).tokens, True⟩
  have hordered : x.Ordered := Reading.ofSource_ordered source
  have hlevels : Levels x True 0 0 x.Sound _ (expression (State.start (TokenStream.ofSource source))) :=
    (Rules.within_steady hordered nestingLimit).expression True 0 _
  have hcomplaints : s.complaints = 0 := by
    rw [State.complaints, quiet]
    rfl
  rw [hrun] at hlevels
  obtain ⟨level, hcrosses, -, -, hlevel⟩ := (hlevels (List.suffix_refl _)).2 trivial fun _ => hcomplaints
  exact hlevel trivial ▸ hcrosses

theorem apart_of_level? (hc : c.closes = true) (hd : d.closes = true)
    (hlevel : Kind.level? 0 (ls.map Lexeme.kind) = some 0)
    (hyield : (ls.map Lexeme.kind).getLast? = some .kwYield → endsYield d = true) : Apart c d ls where
  left := hc
  right := hd
  braces tail htail hmem := by
    obtain ⟨init, rfl⟩ := htail
    rw [List.map_append, Kind.level?_append] at hlevel
    obtain ⟨depth, -, hdepth⟩ := Option.bind_eq_some_iff.mp hlevel
    simp only [List.mem_cons, List.not_mem_nil, or_false] at hmem
    rcases hmem with hmem | hmem <;>
    · rw [hmem] at hdepth
      cases hdepth
  yields tail htail hkinds := by
    obtain ⟨init, rfl⟩ := htail
    refine hyield ?_
    rw [List.map_append, hkinds, List.getLast?_concat]

/-- The kind of the last token that starts before the closer behind `w`. -/
def lastKind? (source : Source) (w : String) : Option Kind :=
  ((TokenStream.ofSource source).toList.filter (·.range.start.pos ≤ byteLength w.toList)).getLast?.map Token.kind

theorem lastKind?_eq (h : (TokenStream.ofSource source).Closes (byteLength w.toList) ls k) :
    lastKind? source w = (ls.map Lexeme.kind).getLast? := by
  obtain ⟨⟨ts, us, htokens, rfl, -, hbefore, hbehind⟩, -⟩ := h
  have hts : ts.filter (·.range.start.pos ≤ byteLength w.toList) = ts :=
    List.filter_eq_self.mpr fun t ht => decide_eq_true (hbefore t ht)
  have hus : us.filter (·.range.start.pos ≤ byteLength w.toList) = [] := by
    refine List.filter_eq_nil_iff.mpr fun t ht => ?_
    rw [hbehind t ht, decide_eq_true_eq]
    exact Nat.not_succ_le_self _
  rw [lastKind?, htokens, List.filter_append, hts, hus, List.append_nil, ← List.getLast?_map, List.map_map]
  rfl

theorem State.current_of_nil (hmoves : Moves (State.start (TokenStream.ofSource source)) s) (hs : s.ahead = []) :
    s.current.range.start.pos = source.length := by
  have heof : s.eof.token = .bare .eof (Lexer.start source).endRange := by
    rw [hmoves.eof]
    exact (Lexer.start source).stream_eof_token (Lexer.ready_start source)
  rw [State.current, hs]
  show s.eof.token.range.start.pos = _
  rw [heof]
  exact Source.range_start_pos (Nat.le_refl _)

/-- Where only the closer is left, it is nearest. -/
theorem State.StopsAt.of_sees (hsource : source.text = closedBy w k)
    (hmoves : Moves (State.start (TokenStream.ofSource source)) s) (hs : s.Sees (closing k))
    (closes : (TokenStream.ofSource source).Closes (byteLength w.toList) ls k) : s.StopsAt w k where
  quiet := hs.quiet
  kind := hs.kind.trans (nearest_closing k)
  pos := by
    by_cases hne : k = .eof
    · subst hne
      rw [State.current_of_nil hmoves (List.map_eq_nil_iff.mp hs.lexemes), length_closedBy hsource]
      rfl
    obtain ⟨⟨ts, us, htokens, -, hclosing, -, hbehind⟩, -⟩ := closes
    obtain ⟨taken, htaken⟩ := hmoves.ahead
    have hahead : s.ahead.map (·.token) = us := by
      have hlist : taken.map (·.token) ++ s.ahead.map (·.token) = ts ++ us := by
        rw [← htokens, ← List.map_append, htaken]
        rfl
      refine (List.append_inj' hlist ?_).2
      have hlength := congrArg List.length (hs.lexemes.trans hclosing.symm)
      rwa [List.length_map, List.length_map, ← List.length_map (f := (·.token))] at hlength
    refine hbehind s.current (hahead ▸ ?_)
    have hnear := hs.lexemes
    rw [closing_of_ne hne] at hnear
    rw [State.current]
    cases hcons : s.ahead with
    | nil => rw [hcons] at hnear; cases hnear
    | cons lexed after => exact List.mem_cons_self

theorem ok_of_run' {α : Type} {p : Parser α} (h : (p.run' s).isSome = true) :
    ∃ a, p s = .ok a (Outcome.stop (p s)) := by
  have h : (EStateM.run' (fun _ => p s) s).isSome = true := h
  cases hrun : p s with
  | ok a t => exact ⟨a, rfl⟩
  | error err t =>
    rw [hrun] at h
    cases h

theorem isSome_run'_of_ok {α : Type} {p : Parser α} {a : α} {t : State} (h : p s = .ok a t) :
    (p.run' s).isSome = true := by
  show (EStateM.run' (fun _ => p s) s).isSome = true
  rw [h]
  rfl

end Grammar

open Grammar

/-- If an expression is read from a text up to a closer with nothing to report, then so it is before any other
    closer, and it is the same up to ranges. Two things are said of the other closer: it ends a `yield` if that is
    the last token of the text, and where the end of the text is replaced by a closer, a comment may take that
    in, so that the end is reached all the same. -/
theorem expression_before_closers (w : String) {c d : Kind} (hc : c.closes = true) (hd : d.closes = true)
    (id id' : Nat) (name name' : String) {e : Node} {s : State}
    (hrun : expression (State.start (TokenStream.ofSource (.ofText id name (closedBy w c)))) = .ok e s)
    (hstop : s.StopsAt w c)
    (hyield : lastKind? (.ofText id name (closedBy w c)) w = some .kwYield → endsYield d = true) :
    ∃ e' s', expression (State.start (TokenStream.ofSource (.ofText id' name' (closedBy w d)))) = .ok e' s' ∧
      e'.unplaced = e.unplaced ∧ s'.log.toList = [] ∧
      (s'.StopsAt w d ∨ c = .eof ∧ d ≠ .eof ∧ s'.kind = .eof ∧
        ∀ t ∈ (TokenStream.ofSource (.ofText id' name' (closedBy w d))).toList,
          t.range.start.pos ≤ byteLength w.toList) := by
  generalize hsource : Source.ofText id name (closedBy w c) = source at hrun hyield
  generalize hsource' : Source.ofText id' name' (closedBy w d) = source'
  have htext : source.text = closedBy w c := hsource ▸ rfl
  have htext' : source'.text = closedBy w d := hsource' ▸ rfl
  have clean := errors_eq_nil hc htext hrun hstop
  obtain ⟨ls, k, k', closes, closes', hkinds⟩ := ofSource_beside hc hd htext htext' clean
  obtain ⟨taken, htaken, hlevel⟩ := expression_crosses hrun hstop.quiet
  obtain ⟨rfl, hls, hahead⟩ := hstop.taken_eq htaken closes (hkinds.imp And.left And.left)
  have hlevel : Kind.level? 0 (ls.map Lexeme.kind) = some 0 := by
    rw [← hls, List.map_map]
    exact hlevel
  have hk' : k'.closes = true := by
    rcases hkinds with ⟨-, rfl⟩ | ⟨-, rfl⟩
    · exact hd
    · rfl
  have apart : Apart k k' ls := by
    refine apart_of_level? hc hk' hlevel fun hlast => ?_
    rcases hkinds with ⟨-, rfl⟩ | ⟨-, rfl⟩
    · exact hyield ((lastKind?_eq closes).trans hlast)
    · rfl
  have hstart : Abreast k k' ls (State.start (.ofSource source)) (State.start (.ofSource source')) :=
    ⟨.start closes.says, .start closes'.says, rfl, rfl, rfl, apart⟩
  have hremaining : s.remaining = (closing k).length := by
    rw [s.remaining_eq, ← hahead, List.length_map]
  have keeps := (Rules.within_keep k k' nestingLimit).expression 0
  obtain ⟨rest, e', s', hrun', hsame, hbehind⟩ :=
    (keeps _ _).leads ls hstart e s hrun ⟨hstop.quiet, hremaining.ge⟩
  obtain rfl : rest = [] := by
    refine List.eq_nil_of_length_eq_zero (Nat.add_right_cancel (m := (closing k).length) ?_)
    rw [← hbehind.remaining, hremaining, Nat.zero_add]
  have hmoves : Moves (State.start (TokenStream.ofSource source')) s' :=
    (keeps _ (State.start (TokenStream.ofSource source'))).moves e' s' hrun'
  refine ⟨e', s', hrun', hsame.symm, hbehind.right.quiet, ?_⟩
  rcases hkinds with ⟨-, rfl⟩ | ⟨hk, rfl⟩
  · exact .inl (.of_sees htext' hmoves hbehind.right closes')
  · by_cases hne : d = .eof
    · subst hne
      exact .inl (.of_sees htext' hmoves hbehind.right closes')
    refine .inr ⟨hk, hne, hbehind.kind_last.2, ?_⟩
    obtain ⟨⟨ts, us, htokens, -, hclosing, hbefore, -⟩, -⟩ := closes'
    rw [htokens, List.map_eq_nil_iff.mp hclosing, List.append_nil]
    exact hbefore

theorem expression_before_closers_call :
    ∃ e s, expression (State.start (.ofSource (.ofText 0 "a" (closedBy "f(yield)[0] + b" .comma)))) = .ok e s ∧
      s.StopsAt "f(yield)[0] + b" .comma ∧
      ∃ e' s', expression (State.start (.ofSource (.ofText 0 "a" (closedBy "f(yield)[0] + b" .rBracket)))) =
          .ok e' s' ∧ e'.unplaced = e.unplaced ∧ s'.StopsAt "f(yield)[0] + b" .rBracket := by
  obtain ⟨e, hrun⟩ := ok_of_run' (p := expression)
    (s := State.start (.ofSource (.ofText 0 "a" (closedBy "f(yield)[0] + b" .comma)))) (by decide +kernel)
  have hstop : (Outcome.stop (expression (State.start
      (.ofSource (.ofText 0 "a" (closedBy "f(yield)[0] + b" .comma)))))).StopsAt "f(yield)[0] + b" .comma := by
    decide +kernel
  have hlast : lastKind? (.ofText 0 "a" (closedBy "f(yield)[0] + b" .comma)) "f(yield)[0] + b" = some .name := by
    decide +kernel
  obtain ⟨e', s', hrun', hsame, -, hstop' | ⟨hend, -⟩⟩ := expression_before_closers "f(yield)[0] + b"
    (c := .comma) (d := .rBracket) rfl rfl 0 0 "a" "a" hrun hstop fun h => by rw [hlast] at h; cases h
  · exact ⟨e, _, hrun, hstop, e', s', hrun', hsame, hstop'⟩
  · cases hend

/-- A `yield` without a value is read before a parenthesis, but not before a bracket. -/
theorem expression_yield_before_bracket :
    (∃ e s, expression (State.start (.ofSource (.ofText 0 "a" (closedBy "yield" .rParen)))) = .ok e s ∧
      s.StopsAt "yield" .rParen) ∧
    ∀ e s, expression (State.start (.ofSource (.ofText 0 "a" (closedBy "yield" .rBracket)))) ≠ .ok e s := by
  obtain ⟨e, hrun⟩ := ok_of_run' (p := expression)
    (s := State.start (.ofSource (.ofText 0 "a" (closedBy "yield" .rParen)))) (by decide +kernel)
  refine ⟨⟨e, _, hrun, by decide +kernel⟩, fun e s hrun => ?_⟩
  have failed : (expression.run' (State.start (.ofSource (.ofText 0 "a" (closedBy "yield" .rBracket))))).isSome =
      false := by decide +kernel
  rw [isSome_run'_of_ok hrun] at failed
  cases failed

end BraceLang
