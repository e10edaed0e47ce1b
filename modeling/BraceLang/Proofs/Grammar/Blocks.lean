import BraceLang.Proofs.Grammar.Levels.Statements
import BraceLang.Proofs.Token.Stream

/-! The braces of the blocks of a parsed program. Between the two braces of a block no brace is closed
    that was not opened there, whatever is wrong with the text. That none is left open is only so if no
    syntax error was reported: where a statement fails behind a brace that it has opened, the block around
    it ends at the brace that closes that one. -/

namespace BraceLang

namespace Grammar

variable {x : Reading} {s t : State}

/-! ### The statements of a program -/

/-- Outside a block no level is kept, since braces that close nothing are skipped there; the nodes are
    sound nevertheless. -/
theorem statementStep_sound {p : Parser Node} (hp : Steady x x.Sound p) {items : Array Node}
    {step : ForInStep (Array Node)} (e : statementStep p false items s = .ok step t)
    (hs : s.ahead <:+ x.tokens) :
    Moves s t ∧ (x.AllSound items.toList → (x.quiet → t.complaints = 0) → x.AllSound step.value.toList) := by
  have hlevels := hp True 0 s hs
  rcases statementStep_cases e with ⟨rfl, rfl, -⟩ | ⟨item, hrun, rfl⟩ | ⟨err, u, hrun, -, -, hsync, rfl⟩
  · exact ⟨.refl s, fun hitems _ => hitems⟩
  · rw [hrun] at hlevels
    obtain ⟨hmoves, hlands⟩ := hlevels
    refine ⟨hmoves, fun hitems hquiet => ?_⟩
    obtain ⟨_, -, hsound, -⟩ := hlands trivial hquiet
    exact hitems.push hsound
  · rw [hrun] at hlevels
    have hsynced : Moves _ t := Agrees.moves (Agrees.synchronize s.remaining false) hsync
    exact ⟨(hlevels.1.trans (.report u err)).trans hsynced, fun hitems _ => hitems⟩

theorem Loop.sound {p : Parser Node} (hp : Steady x x.Sound p) {items result : Array Node}
    {o : Outcome (Array Node)} (h : Loop (statementStep p false) items s o) (hok : o = .ok result t)
    (hs : s.ahead <:+ x.tokens) :
    Moves s t ∧ (x.AllSound items.toList → (x.quiet → t.complaints = 0) → x.AllSound result.toList) := by
  induction h with
  | done hstep =>
    cases hok
    exact statementStep_sound hp hstep hs
  | again hstep _ ih =>
    obtain ⟨hmoves, hsound⟩ := statementStep_sound hp hstep hs
    obtain ⟨hmoves', hsound'⟩ := ih hok (hmoves.ahead.trans hs)
    refine ⟨hmoves.trans hmoves', fun hitems hquiet => hsound' (hsound hitems fun h => ?_) hquiet⟩
    exact Nat.le_zero.mp (hquiet h ▸ hmoves'.complaints_le)
  | failed _ => cases hok

/-- The tokens of a source, and that no syntax error is reported for it. -/
def Reading.ofSource (source : Source) : Reading where
  tokens := (TokenStream.ofSource source).tokens
  quiet := ∀ d ∈ (parse source).2.toList, d.isSyntax = false

theorem Reading.ofSource_ordered (source : Source) : (Reading.ofSource source).Ordered := by
  obtain ⟨hstands, hpairs⟩ := TokenStream.ofSource_ordered source
  rw [TokenStream.toList, List.pairwise_map] at hpairs
  refine hpairs.imp_of_mem fun {a b} ha hb hle => ?_
  have ha := hstands a.token (List.mem_map_of_mem ha)
  have hb := hstands b.token (List.mem_map_of_mem hb)
  exact ⟨ha.source_eq.trans hb.source_eq.symm, Nat.le_trans ha.start_le_stop hle,
    Nat.le_trans hle hb.start_le_stop⟩

theorem parse_sound (source : Source) : (Reading.ofSource source).AllSound (parse source).1.items := by
  have hread := Rules.within_read nestingLimit
  have hsteady := Rules.within_steady (Reading.ofSource_ordered source) nestingLimit
  obtain ⟨items, t, hrun, -⟩ := statements_reach_end hread (State.start (TokenStream.ofSource source))
  have hparse := parse_eq hrun
  have hquiet : (Reading.ofSource source).quiet → t.complaints = 0 := by
    intro h
    unfold Reading.ofSource at h
    rw [hparse] at h
    exact List.countP_eq_zero.mpr fun d hd => by simp [h d hd]
  obtain ⟨result, u, hloop, hpure⟩ := bind_eq_ok.mp hrun
  obtain ⟨rfl, rfl⟩ := pure_eq_ok.mp hpure
  rw [hparse]
  exact (((hread.loopsAdvance.statements false).loop #[] _).sound hsteady.statement hloop
    (List.suffix_refl _)).2 .nil hquiet

end Grammar

open Grammar

/-- Every block has its two braces among the tokens. Between them braces are opened before they are
    closed, and as many are closed as are opened if no syntax error was reported. -/
theorem parse_blocks_braced (source : Source) :
    ∀ n ∈ (parse source).1.items.flatMap Node.preorder, n.shape.isBlock = true →
      ∃ before opening inner closing after,
        (TokenStream.ofSource source).toList = before ++ opening :: (inner ++ closing :: after) ∧
        opening.kind = .lBrace ∧ closing.kind = .rBrace ∧
        n.range.start.pos = opening.range.start.pos ∧ n.range.stop.pos = closing.range.stop.pos ∧
        (∀ ks, ks <+: inner.map Token.kind → ks.count .rBrace ≤ ks.count .lBrace) ∧
        ((∀ d ∈ (parse source).2.toList, d.isSyntax = false) →
          (inner.map Token.kind).count .lBrace = (inner.map Token.kind).count .rBrace) := by
  intro n hn hblock
  obtain ⟨item, hitem, hn⟩ := List.mem_flatMap.mp hn
  obtain ⟨before, opening, inner, closing, after, level, htokens, hopening, hclosing, hstart, hstop, hlevel,
    hexact⟩ := (parse_sound source item hitem).of_mem_preorder hn hblock
  have hkinds : (inner.map (·.token)).map Token.kind = kindsOf inner := List.map_map
  refine ⟨before.map (·.token), opening.token, inner.map (·.token), closing.token, after.map (·.token), ?_,
    hopening, hclosing, hstart, hstop, ?_, ?_⟩
  · have hlist := congrArg (List.map Lexed.token) htokens
    rwa [List.map_append, List.map_cons, List.map_append, List.map_cons] at hlist
  · rw [hkinds]
    exact fun ks hks => Kind.count_le_of_prefix hlevel hks
  · intro hquiet
    rw [hkinds]
    exact Kind.count_eq_of_level? (hexact hquiet ▸ hlevel)

theorem parse_blocks_braced_struct :
    ∃ n ∈ (parse (Source.ofText 0 "a" "\x7b struct S \x7b x: i32 \x7d \x7d")).1.items.flatMap Node.preorder,
      n.shape.isBlock = true ∧
      ∃ before opening inner closing after,
        (TokenStream.ofSource (Source.ofText 0 "a" "\x7b struct S \x7b x: i32 \x7d \x7d")).toList =
          before ++ opening :: (inner ++ closing :: after) ∧
        opening.kind = .lBrace ∧ closing.kind = .rBrace ∧
        n.range.start.pos = opening.range.start.pos ∧ n.range.stop.pos = closing.range.stop.pos ∧
        (inner.map Token.kind).count .lBrace = (inner.map Token.kind).count .rBrace := by
  have quiet : (parse (Source.ofText 0 "a" "\x7b struct S \x7b x: i32 \x7d \x7d")).2.toList = [] :=
    List.isEmpty_iff.mp (by decide +kernel)
  obtain ⟨n, hn, hblock⟩ :
      ∃ n ∈ (parse (Source.ofText 0 "a" "\x7b struct S \x7b x: i32 \x7d \x7d")).1.items.flatMap Node.preorder,
        n.shape.isBlock = true := by decide +kernel
  obtain ⟨before, opening, inner, closing, after, htokens, hopening, hclosing, hstart, hstop, -, hexact⟩ :=
    parse_blocks_braced _ n hn hblock
  refine ⟨n, hn, hblock, before, opening, inner, closing, after, htokens, hopening, hclosing, hstart, hstop, ?_⟩
  apply hexact
  rw [quiet]
  exact List.forall_mem_nil _

/-- Recovery can take the brace of a struct for that of the block around it: here the field has no type,
    the block ends where the struct does, and the struct's opening brace is left open in it. -/
theorem parse_block_unbalanced :
    ∃ n ∈ (parse (Source.ofText 0 "a" "\x7b struct S \x7b x: \x7d \x7d")).1.items.flatMap Node.preorder,
      n.shape.isBlock = true ∧
      ((TokenStream.ofSource (Source.ofText 0 "a" "\x7b struct S \x7b x: \x7d \x7d")).toList.filter fun t =>
        n.range.start.pos < t.range.start.pos ∧ t.range.stop.pos < n.range.stop.pos).map Token.kind =
        [.kwStruct, .name, .lBrace, .name, .colon] := by
  decide +kernel

end BraceLang
