import BraceLang.Proofs.Grammar.Reads

/-! What the parsers of types and expressions read. -/

namespace BraceLang.Grammar

variable {r : Rules} {s t : State} {n : Node}

/-! ### Types -/

theorem arraySize_reads (h : r.Read) {size : Option Node} (e : arraySize r s = .ok size t) :
    Reads s 0 (size.toList.map .part) t := by
  rcases check_ite_eq_ok.mp e with ⟨-, e⟩ | ⟨-, e⟩
  · obtain ⟨rfl, rfl⟩ := pure_eq_ok.mp e
    exact .refl _
  · obtain ⟨n, u, hn, e⟩ := bind_eq_ok.mp e
    obtain ⟨rfl, rfl⟩ := pure_eq_ok.mp e
    exact (h.expression.withStructLiterals hn).weaken (Nat.zero_le 1)

theorem typeSuffixStep_reads (h : r.Read) (start : Range) :
    StepReads (fun type => [.part type]) (typeSuffixStep r start) := by
  intro type s r t e
  rcases eat_ite_eq_ok.mp e with ⟨hk, e⟩ | ⟨-, e⟩
  · simp only [bind_eq_ok, expect_eq_ok, close_eq_ok, pure_eq_ok] at e
    obtain ⟨size, u, hsize, _, _, ⟨hclose, -, rfl⟩, _, _, ⟨rfl, rfl⟩, rfl, rfl⟩ := e
    have hread := ((Reads.mark hk rfl).trans (arraySize_reads h hsize)).trans (.mark hclose rfl)
    refine hread.identified.again (.node ?_ rfl)
    simp [Shape.pieces, Shape.toList]
  · rcases eat_ite_eq_ok.mp e with ⟨hk, e⟩ | ⟨-, e⟩
    · simp only [bind_eq_ok, close_eq_ok, pure_eq_ok] at e
      obtain ⟨_, _, ⟨rfl, rfl⟩, rfl, rfl⟩ := e
      refine (Reads.mark hk rfl).identified.again (.node ?_ rfl)
      rfl
    · obtain ⟨rfl, rfl⟩ := pure_eq_ok.mp e
      exact .idle

/-- The pieces that collected names are. -/
def collectedNames (names : Array Ident) : List (Piece Node) := names.toList.map Ident.piece

theorem pathStep_reads : StepReads collectedNames pathStep := by
  intro names s r t e
  simp only [pathStep, check_bind, peek_bind] at e
  rcases ite_eq_ok.mp e with ⟨hk, e⟩ | ⟨-, e⟩
  · simp only [advance_bind, bind_eq_ok, expectName_eq_ok, pure_eq_ok] at e
    obtain ⟨_, _, ⟨hname, rfl, rfl⟩, rfl, rfl⟩ := e
    have hdot : s.kind = .dot := by simp at hk; exact hk.1
    refine ((Reads.mark hdot rfl).trans (.name hname)).again (.of_eq ?_)
    simp [collectedNames, Ident.piece]
  · obtain ⟨rfl, rfl⟩ := pure_eq_ok.mp e
    exact .idle

theorem pathRest_reads {names : List Ident} (e : pathRest s = .ok names t) :
    Reads s 0 (names.map Ident.piece) t := by
  obtain ⟨collected, u, hnames, e⟩ := bind_eq_ok.mp e
  obtain ⟨rfl, rfl⟩ := pure_eq_ok.mp e
  obtain ⟨ps, hps, hgroup⟩ := pathStep_reads.repeating hnames
  exact hps.regroup hgroup

theorem namedType_builds (h : r.Read) {shape : Shape Node} (e : namedType r s = .ok shape t) :
    Builds s shape t := by
  simp only [namedType, bind_eq_ok, expectName_eq_ok, check_bind] at e
  obtain ⟨_, _, ⟨hname, rfl, rfl⟩, path, u, hpath, b, v, hb, e⟩ := e
  obtain rfl := atArraySuffix_eq_ok hb
  have hread := (Reads.name hname).trans (pathRest_reads hpath)
  rcases ite_eq_ok.mp e with ⟨hk, e⟩ | ⟨-, e⟩
  · simp only [advance_bind, bind_eq_ok, pure_eq_ok] at e
    obtain ⟨args, _, hargs, rfl, rfl⟩ := e
    have hbracket : u.kind = .lBracket := by
      simp only [Bool.and_eq_true, beq_iff_eq] at hk
      exact hk.1
    have hread := (hread.trans (.mark hbracket rfl)).trans (list_reads h.type rfl hargs)
    exact hread.builds (by decide) (by simp [Shape.pieces, Ident.piece]) rfl
  · obtain ⟨rfl, rfl⟩ := pure_eq_ok.mp e
    exact hread.builds (by decide) (by simp [Shape.pieces, Ident.piece]) rfl

theorem pointee_builds (h : r.Read) {shape : Shape Node} (e : pointee r s = .ok shape t) :
    Builds s shape t := by
  simp only [pointee, bind_eq_ok, pure_eq_ok] at e
  obtain ⟨isConst, u, hconst, n, _, hn, rfl, rfl⟩ := e
  exact ((Reads.eat rfl hconst).trans (h.type hn)).builds (by decide) rfl rfl

theorem baseType_builds (h : r.Read) {shape : Shape Node} (e : baseType r s = .ok shape t) :
    Builds s shape t := by
  simp only [baseType, kind_bind] at e
  rcases ite_eq_ok.mp e with ⟨hk, e⟩ | ⟨-, e⟩
  · obtain ⟨rfl, rfl⟩ := pure_eq_ok.mp e
    exact (Reads.prim hk).builds (by decide) rfl rfl
  generalize hk : s.kind = k at e
  split at e
  case h_1 => exact namedType_builds h e
  case h_2 =>
    simp only [advance_bind, bind_eq_ok, pure_eq_ok] at e
    obtain ⟨elements, _, helements, rfl, rfl⟩ := e
    exact ((Reads.mark hk rfl).trans (list_reads h.type rfl helements)).builds (by decide) rfl rfl
  case h_3 =>
    simp only [advance_bind, bind_eq_ok, expect_eq_ok, pure_eq_ok] at e
    obtain ⟨_, _, ⟨hparen, -, rfl⟩, params, u, hparams, result, _, hresult, rfl, rfl⟩ := e
    have hread := ((Reads.mark hk rfl).trans (.mark hparen rfl)).trans
      ((list_reads h.type rfl hparams).trans (optionalAfter_reads h.type rfl hresult))
    exact hread.builds (by decide) (by simp [Shape.pieces, Shape.toList]) rfl
  case h_4 =>
    rw [advance_bind] at e
    have hpointee := pointee_builds h e
    exact ⟨((Reads.mark hk rfl).trans hpointee.reads).weaken (by decide), hpointee.member⟩
  case h_5 =>
    simp only [advance_bind, here_bind, bind_eq_ok, close_eq_ok, pure_eq_ok] at e
    obtain ⟨inner, _, hinner, _, _, ⟨rfl, rfl⟩, rfl, rfl⟩ := e
    exact ((Reads.mark hk rfl).trans (pointee_builds h hinner).node).builds (by decide) rfl rfl
  case h_6 => exact (unexpected_eq_ok.mp e).elim

theorem typeRule_reads (h : r.Read) : ReadsNode (typeRule r) := by
  intro s n t e
  simp only [typeRule, here_bind, bind_eq_ok, close_eq_ok] at e
  obtain ⟨shape, u, hshape, _, _, ⟨rfl, rfl⟩, e⟩ := e
  obtain ⟨ps, hps, hgroup⟩ := (typeSuffixStep_reads h _).repeating e
  exact ((baseType_builds h hshape).node.trans hps).regroup hgroup

/-! ### Signatures and closures -/

theorem parameter_reads (h : r.Read) : ReadsNode (parameter r) := by
  intro s n t e
  simp only [parameter, here_bind, bind_eq_ok, expectName_eq_ok, close_eq_ok] at e
  obtain ⟨_, _, ⟨hname, rfl, rfl⟩, type, u, htype, default, v, hdefault, rfl, rfl⟩ := e
  have hread := (Reads.name hname).trans ((optionalAfter_reads h.type rfl htype).trans
    (optionalAfter_reads h.expression rfl hdefault))
  exact hread.node (by decide) (by simp [Shape.pieces, Ident.piece]) rfl

theorem callSignature_reads (h : r.Read) : ReadsNode (callSignature r) := by
  intro s n t e
  simp only [callSignature, here_bind, bind_eq_ok, expect_eq_ok, close_eq_ok] at e
  obtain ⟨_, _, ⟨hparen, -, rfl⟩, params, u, hparams, result, v, hresult, rfl, rfl⟩ := e
  have hread := (Reads.mark hparen rfl).trans ((list_reads (parameter_reads h) rfl hparams).trans
    (optionalAfter_reads h.type rfl hresult))
  exact hread.node (by decide) (by simp [Shape.pieces, Shape.toList]) rfl

theorem takePendingAsync_reads {pending : Option Range} (e : takePendingAsync s = .ok pending t) :
    Reads s 0 [] t := by
  cases e
  exact ⟨.setPendingAsync s _, Nat.le_refl _, fun _ _ => rfl, fun _ h => absurd h List.not_mem_nil⟩

theorem closureStart_reads {start : Range × Bool} (e : closureStart s = .ok start t) :
    Reads s 0 [] t := by
  obtain ⟨pending, u, hpending, e⟩ := bind_eq_ok.mp e
  have hread := takePendingAsync_reads hpending
  cases pending with
  | some range =>
    obtain ⟨-, rfl⟩ := pure_eq_ok.mp e
    exact hread
  | none =>
    simp only [here_bind, bind_eq_ok, pure_eq_ok] at e
    obtain ⟨b, _, hb, -, rfl⟩ := e
    exact hread.trans (.eat rfl hb)

theorem closureBody_reads (h : r.Read) : ReadsNode (closureBody r) := by
  intro s n t e
  rcases eat_ite_eq_ok.mp e with ⟨hk, e⟩ | ⟨-, e⟩
  · exact ((Reads.mark hk rfl).trans (h.expression e)).weaken (by decide)
  · rcases check_ite_eq_ok.mp e with ⟨-, e⟩ | ⟨-, e⟩
    · exact h.block e
    · exact (unexpected_eq_ok.mp e).elim

theorem closure_reads (h : r.Read) : ReadsNode (closure r) := by
  intro s n t e
  simp only [closure, bind_eq_ok, expect_eq_ok, close_eq_ok] at e
  obtain ⟨start, u, hstart, _, _, ⟨hfunc, -, rfl⟩, sig, v, hsig, body, w, hbody, rfl, rfl⟩ := e
  have hread := ((closureStart_reads hstart).trans (.mark hfunc rfl)).trans
    ((callSignature_reads h hsig).trans (closureBody_reads h hbody))
  exact hread.node (by decide) rfl rfl

/-! ### Primaries -/

/-- A literal is one word, the one that its token is. -/
theorem literal_pieces {token : Token} (hk : token.kind ∈
    [Kind.intLit, .floatLit, .charLit, .stringLit, .boolLit, .nullLit]) :
    ∃ w, (literal token).pieces = [.word w] ∧ (token.Spoken → token.word? = some w) := by
  obtain ⟨kind, range, payload⟩ := token
  simp only [List.mem_cons, List.not_mem_nil, or_false] at hk
  unfold literal Token.word? Token.Spoken
  rcases hk with rfl | rfl | rfl | rfl | rfl | rfl
  case inr.inr.inr.inr.inr => exact ⟨_, rfl, fun _ => rfl⟩
  all_goals
    cases payload with
    | none => exact ⟨_, rfl, fun h => by cases h⟩
    | some payload => cases payload <;> exact ⟨_, rfl, fun h => by first | rfl | cases h⟩

theorem literal_reads {k : Kind} (hk : s.kind = k) (hlit : k ∈
    [Kind.intLit, .floatLit, .charLit, .stringLit, .boolLit, .nullLit]) :
    Builds s (literal s.current) s.advance := by
  obtain rfl := hk
  obtain ⟨w, hpieces, hword⟩ := literal_pieces hlit
  have hne : s.kind ≠ .eof := fun h => by simp [h] at hlit
  refine (Reads.word hne hword).builds (by decide) hpieces.symm ?_
  generalize literal s.current = shape at hpieces
  cases shape <;> first | rfl | cases hpieces

theorem templateStep_reads (h : r.Read) : StepReads collected (templateStep r) := by
  intro parts s step t e
  rw [templateStep, kind_bind] at e
  generalize hk : s.kind = k at e
  split at e
  · obtain ⟨rfl, rfl⟩ := pure_eq_ok.mp e
    exact (Reads.mark hk rfl).last (.of_eq (List.append_nil _))
  · rw [advance_bind] at e
    rcases ite_eq_ok.mp e with ⟨hempty, e⟩ | ⟨hempty, e⟩
    · obtain ⟨rfl, rfl⟩ := pure_eq_ok.mp e
      have hread : Reads s 1 [] s.advance := .mute (by simp [hk]) fun hspoken => by
        rw [Token.word?_templateText hk hspoken, if_pos hempty]
      exact hread.again (.of_eq (List.append_nil _))
    · simp only [bind_eq_ok, node_eq_ok, pure_eq_ok] at e
      obtain ⟨_, _, ⟨rfl, rfl⟩, rfl, rfl⟩ := e
      have hread : Builds s (.str s.current.text) s.advance :=
        (Reads.word (by simp [hk]) fun hspoken => by
          rw [Token.word?_templateText hk hspoken, if_neg hempty]).builds (by decide) rfl rfl
      exact hread.node.again (.of_eq collected_push)
  · exact (unexpected_eq_ok.mp e).elim
  · simp only [bind_eq_ok, pure_eq_ok] at e
    obtain ⟨n, _, hn, rfl, rfl⟩ := e
    exact (h.expression.withStructLiterals hn).again (.of_eq collected_push)

theorem template_reads (h : r.Read) : ReadsNode (template r) := by
  intro s n t e
  simp only [template, here_bind, bind_eq_ok, expect_eq_ok, close_eq_ok] at e
  obtain ⟨_, _, ⟨hopen, -, rfl⟩, parts, u, hparts, rfl, rfl⟩ := e
  obtain ⟨ps, hps, hgroup⟩ := (templateStep_reads h).repeating hparts
  exact ((Reads.mark hopen rfl).trans (hps.regroup hgroup)).node (by decide) rfl rfl

theorem elementStep_reads (h : r.Read) : StepReads collected (elementStep r) := by
  intro elements s step t e
  simp only [elementStep, bind_eq_ok, check_bind] at e
  obtain ⟨comma, u, hcomma, e⟩ := e
  rcases ite_eq_ok.mp e with ⟨-, e⟩ | ⟨-, e⟩
  · obtain ⟨n, v, hn, e⟩ := bind_eq_ok.mp e
    obtain ⟨rfl, rfl⟩ := pure_eq_ok.mp e
    exact ((Reads.eat rfl hcomma).trans (h.expression hn)).again (.of_eq collected_push)
  · obtain ⟨rfl, rfl⟩ := pure_eq_ok.mp e
    exact (Reads.eat rfl hcomma).last (.of_eq (List.append_nil _))

theorem moreElements_reads (h : r.Read) {first : Node} {elements : List Node}
    (e : moreElements r first s = .ok elements t) :
    ∃ ps, Reads s 0 ps t ∧ Regroups (.part first :: ps) (elements.map .part) := by
  obtain ⟨items, u, hitems, e⟩ := bind_eq_ok.mp e
  obtain ⟨rfl, rfl⟩ := pure_eq_ok.mp e
  exact (elementStep_reads h).repeating hitems

theorem insideParens_reads (h : r.Read) {shape : Shape Node} (e : insideParens r s = .ok shape t) :
    Builds s shape t := by
  rcases check_ite_eq_ok.mp e with ⟨-, e⟩ | ⟨-, e⟩
  · simp only [bind_eq_ok, expect_eq_ok, pure_eq_ok] at e
    obtain ⟨_, _, ⟨hclose, -, rfl⟩, rfl, rfl⟩ := e
    exact (Reads.mark hclose rfl).builds (by decide) rfl rfl
  · simp only [bind_eq_ok, check_bind, expect_eq_ok, pure_eq_ok] at e
    obtain ⟨first, u, hfirst, elements, v, helements, _, _, ⟨hclose, -, rfl⟩, rfl, rfl⟩ := e
    by_cases hcomma : u.kind = .comma
    · obtain ⟨ps, hps, hgroup⟩ := moreElements_reads h helements
      have hread := (((h.expression hfirst).trans hps).regroup hgroup).trans (.mark hclose rfl)
      rw [hcomma]
      exact hread.builds (by decide) (List.append_nil _) rfl
    · rw [moreElements_of_ne_comma hcomma] at helements
      cases helements
      rw [beq_eq_false_iff_ne.mpr hcomma]
      exact ((h.expression hfirst).trans (.mark hclose rfl)).builds (by decide) rfl rfl

theorem parenthesized_reads (h : r.Read) : ReadsNode (parenthesized r) := by
  intro s n t e
  simp only [parenthesized, here_bind, bind_eq_ok, expect_eq_ok, withStructLiterals_eq_ok,
    close_eq_ok] at e
  obtain ⟨_, _, ⟨hopen, -, rfl⟩, shape, _, ⟨u, hshape, rfl⟩, rfl, rfl⟩ := e
  have hbuilds := insideParens_reads h hshape
  have hread := (Reads.mark hopen rfl).trans hbuilds.reads.withStructLiterals
  exact hread.node (by decide) rfl hbuilds.member

theorem fieldInit_reads (h : r.Read) : ReadsNode (fieldInit r) := by
  intro s n t e
  simp only [fieldInit, here_bind, bind_eq_ok, expectName_eq_ok, expect_eq_ok, close_eq_ok] at e
  obtain ⟨_, _, ⟨hname, rfl, rfl⟩, _, _, ⟨hcolon, -, rfl⟩, value, u, hvalue, rfl, rfl⟩ := e
  have hread := ((Reads.name hname).trans (.mark hcolon rfl)).trans (h.expression hvalue)
  exact hread.node (by decide) rfl rfl

theorem nameOrStructLiteral_reads (h : r.Read) (hname : s.kind = .name)
    (e : nameOrStructLiteral r s = .ok n t) : Reads s 1 [.part n] t := by
  simp only [nameOrStructLiteral, here_bind, advance_bind, bind_eq_ok, node_eq_ok, get_bind,
    check_bind] at e
  obtain ⟨path, _, ⟨rfl, rfl⟩, b, _, hb, e⟩ := e
  obtain rfl := atStructLiteral_eq_ok hb
  have hname : Builds s (.name s.current.text) s.advance :=
    (Reads.name hname).builds (by decide) rfl rfl
  rcases ite_eq_ok.mp e with ⟨-, e⟩ | ⟨-, e⟩
  · simp only [bind_eq_ok, expect_eq_ok, close_eq_ok] at e
    obtain ⟨_, _, ⟨hbrace, -, rfl⟩, fields, u, hfields, rfl, rfl⟩ := e
    exact ((hname.node.trans (.mark hbrace rfl)).trans
      (list_reads (fieldInit_reads h) rfl hfields)).node (by decide) rfl rfl
  · obtain ⟨rfl, rfl⟩ := pure_eq_ok.mp e
    exact hname.node

theorem optionalValue_reads (h : r.Read) {ends : Kind → Bool} {value : Option Node}
    (e : optionalValue ends r s = .ok value t) : Reads s 0 (value.toList.map .part) t := by
  rw [optionalValue, kind_bind] at e
  rcases ite_eq_ok.mp e with ⟨-, e⟩ | ⟨-, e⟩
  · obtain ⟨rfl, rfl⟩ := pure_eq_ok.mp e
    exact .refl _
  · obtain ⟨n, u, hn, e⟩ := bind_eq_ok.mp e
    obtain ⟨rfl, rfl⟩ := pure_eq_ok.mp e
    exact (h.expression hn).weaken (Nat.zero_le 1)

theorem primary_reads (h : r.Read) : ReadsNode (primary r) := by
  intro s n t e
  rw [primary, here_bind, kind_bind] at e
  generalize hk : s.kind = k at e
  split at e
  case h_1 | h_2 | h_3 | h_4 | h_5 | h_6 =>
    simp only [advance_bind, node_eq_ok] at e
    obtain ⟨rfl, rfl⟩ := e
    exact (literal_reads hk (by decide)).node
  case h_7 => exact template_reads h e
  case h_8 => exact parenthesized_reads h e
  case h_9 => exact h.block e
  case h_10 =>
    simp only [advance_bind, bind_eq_ok, close_eq_ok] at e
    obtain ⟨elements, _, helements, rfl, rfl⟩ := e
    exact ((Reads.mark hk rfl).trans (list_reads h.expression rfl helements)).node (by decide) rfl rfl
  case h_11 =>
    simp only [advance_bind, bind_eq_ok, expectName_eq_ok, close_eq_ok] at e
    obtain ⟨_, _, ⟨hname, rfl, rfl⟩, rfl, rfl⟩ := e
    exact ((Reads.mark hk rfl).trans (.name hname)).node (by decide) rfl rfl
  case h_12 => exact nameOrStructLiteral_reads h hk e
  case h_13 | h_14 => exact closure_reads h e
  case h_15 =>
    simp only [advance_bind, bind_eq_ok, expect_eq_ok, close_eq_ok] at e
    obtain ⟨type, _, htype, _, _, ⟨hparen, -, rfl⟩, args, _, hargs, rfl, rfl⟩ := e
    have hread := ((Reads.mark hk rfl).trans (h.type htype)).trans
      ((Reads.mark hparen rfl).trans (list_reads h.expression rfl hargs))
    exact hread.node (by decide) rfl rfl
  case h_16 =>
    simp only [advance_bind, bind_eq_ok, close_eq_ok] at e
    obtain ⟨value, _, hvalue, rfl, rfl⟩ := e
    exact ((Reads.mark hk rfl).trans (optionalValue_reads h hvalue)).node (by decide) rfl rfl
  case h_17 =>
    simp only [advance_bind, bind_eq_ok, close_eq_ok] at e
    obtain ⟨value, _, hvalue, rfl, rfl⟩ := e
    exact ((Reads.mark hk rfl).trans (h.expression hvalue)).node (by decide) rfl rfl
  case h_18 => exact (unexpected_eq_ok.mp e).elim

/-! ### Operators -/

theorem memberName_reads (e : memberName s = .ok n t) : Reads s 1 [.part n] t ∧ n.isSelector := by
  rw [memberName, kind_bind] at e
  generalize hk : s.kind = k at e
  split at e
  · obtain ⟨rfl, rfl⟩ := node_eq_ok.mp e
    exact ⟨(Reads.name hk).node (by decide) rfl rfl, rfl⟩
  · obtain ⟨rfl, rfl⟩ := node_eq_ok.mp e
    have hword : Reads s 1 [.word (.int s.current.int)] s.advance :=
      .word (by simp [hk]) (Token.word?_int hk)
    exact ⟨hword.node (by decide) rfl rfl, rfl⟩
  · exact (unexpected_eq_ok.mp e).elim

/-- The suffix of a target: what is read after it completes a construct with the target first. -/
theorem suffix?_reads (h : r.Read) {target : Node} {found : Option (Shape Node)}
    (e : suffix? r target s = .ok found t) :
    match found with
    | some shape => ∃ ps, Reads s 1 ps t ∧ .part target :: ps = shape.pieces ∧
        shape.selectsProperly = true
    | none => s = t := by
  rw [suffix?, kind_bind] at e
  generalize hk : s.kind = k at e
  split at e
  case h_1 | h_2 =>
    obtain ⟨rfl, rfl⟩ := pure_eq_ok.mp e
    exact ⟨_, .mark hk rfl, rfl, rfl⟩
  case h_3 | h_4 =>
    simp only [advance_bind, bind_eq_ok, pure_eq_ok] at e
    obtain ⟨member, _, hmember, rfl, rfl⟩ := e
    obtain ⟨hread, hselector⟩ := memberName_reads hmember
    exact ⟨_, ((Reads.mark hk rfl).trans hread).weaken (by decide), rfl, hselector⟩
  case h_5 | h_7 =>
    simp only [advance_bind, bind_eq_ok, pure_eq_ok] at e
    obtain ⟨args, _, hargs, rfl, rfl⟩ := e
    have hread := (Reads.mark hk rfl).trans (list_reads h.expression rfl hargs)
    exact ⟨_, hread.weaken (by decide), rfl, rfl⟩
  case h_6 =>
    rw [advance_bind] at e
    rcases eat_ite_eq_ok.mp e with ⟨hparen, e⟩ | ⟨-, e⟩
    · obtain ⟨args, _, hargs, e⟩ := bind_eq_ok.mp e
      obtain ⟨rfl, rfl⟩ := pure_eq_ok.mp e
      have hread := (Reads.mark hk rfl).trans ((Reads.mark hparen rfl).trans
        (list_reads h.expression rfl hargs))
      exact ⟨_, hread.weaken (by decide), rfl, rfl⟩
    · obtain ⟨rfl, rfl⟩ := pure_eq_ok.mp e
      exact ⟨_, .mark hk rfl, rfl, rfl⟩
  case h_8 =>
    simp only [advance_bind, bind_eq_ok, pure_eq_ok] at e
    obtain ⟨type, _, htype, rfl, rfl⟩ := e
    exact ⟨_, ((Reads.mark hk rfl).trans (h.type htype)).weaken (by decide), rfl, rfl⟩
  case h_9 =>
    obtain ⟨rfl, rfl⟩ := pure_eq_ok.mp e
    rfl

theorem suffixStep_reads (h : r.Read) (start : Range) :
    StepReads (fun target => [.part target]) (suffixStep r start) := by
  intro target s step t e
  obtain ⟨found, u, hfound, e⟩ := bind_eq_ok.mp e
  cases found with
  | some shape =>
    obtain ⟨ps, hread, hpieces, hmember⟩ := suffix?_reads h hfound
    simp only [bind_eq_ok, close_eq_ok, pure_eq_ok] at e
    obtain ⟨_, _, ⟨rfl, rfl⟩, rfl, rfl⟩ := e
    exact hread.identified.again (.node hpieces hmember)
  | none =>
    have hsame : s = u := suffix?_reads h hfound
    obtain ⟨rfl, rfl⟩ := pure_eq_ok.mp e
    exact hsame ▸ .idle

theorem suffixed_reads (h : r.Read) : ReadsNode (suffixed r) := by
  intro s n t e
  rw [suffixed, here_bind] at e
  obtain ⟨first, u, hfirst, e⟩ := bind_eq_ok.mp e
  obtain ⟨ps, hps, hgroup⟩ := (suffixStep_reads h _).repeating e
  exact ((primary_reads h hfirst).trans hps).regroup hgroup

theorem isMark_of_prefixOp : ∀ k : Kind, k.roles.prefixOp = true → k.isMark = true := by
  intro k
  cases k <;> decide

theorem prefixed_reads (h : r.Read) : ReadsNode (prefixed r) := by
  intro s n t e
  rw [prefixed, kind_bind] at e
  rcases ite_eq_ok.mp e with ⟨hop, e⟩ | ⟨-, e⟩
  · simp only [here_bind, advance_bind, bind_eq_ok, close_eq_ok] at e
    obtain ⟨operand, _, hoperand, rfl, rfl⟩ := e
    have hread := (Reads.mark rfl (isMark_of_prefixOp _ hop)).trans (h.unary hoperand)
    exact hread.node (by decide) rfl rfl
  · exact suffixed_reads h e

theorem isMark_of_binary : ∀ k : Kind, k.roles.binary = true → k.isMark = true := by
  intro k
  cases k <;> decide

theorem binaryStep_reads (h : r.Read) (limit : Nat) (start : Range) :
    StepReads (fun lhs => [.part lhs]) (binaryStep r limit start) := by
  intro lhs s step t e
  rw [binaryStep, kind_bind] at e
  rcases ite_eq_ok.mp e with ⟨hop, e⟩ | ⟨-, e⟩
  · simp only [advance_bind, bind_eq_ok, close_eq_ok, pure_eq_ok] at e
    obtain ⟨rhs, _, hrhs, _, _, ⟨rfl, rfl⟩, rfl, rfl⟩ := e
    have hbinary := (Bool.and_eq_true_iff.mp hop).1
    have hread := (Reads.mark rfl (isMark_of_binary _ hbinary)).trans (h.operand _ hrhs)
    refine hread.identified.again (.node ?_ rfl)
    rfl
  · obtain ⟨rfl, rfl⟩ := pure_eq_ok.mp e
    exact .idle

theorem binary_reads (h : r.Read) (limit : Nat) : ReadsNode (binary r limit) := by
  intro s n t e
  rw [binary, here_bind] at e
  obtain ⟨first, u, hfirst, e⟩ := bind_eq_ok.mp e
  obtain ⟨ps, hps, hgroup⟩ := (binaryStep_reads h limit _).repeating e
  exact ((prefixed_reads h hfirst).trans hps).regroup hgroup

theorem isMark_of_assignment : ∀ k : Kind, k.roles.assignment = true → k.isMark = true := by
  intro k
  cases k <;> decide

theorem assignment_reads (h : r.Read) : ReadsNode (assignment r) := by
  intro s n t e
  rw [assignment, here_bind] at e
  obtain ⟨target, u, htarget, e⟩ := bind_eq_ok.mp e
  rw [kind_bind] at e
  rcases ite_eq_ok.mp e with ⟨hop, e⟩ | ⟨-, e⟩
  · simp only [advance_bind, bind_eq_ok, close_eq_ok] at e
    obtain ⟨value, _, hvalue, rfl, rfl⟩ := e
    have hread := (binary_reads h _ htarget).trans
      ((Reads.mark rfl (isMark_of_assignment _ hop)).trans (h.expression hvalue))
    exact hread.node (by decide) rfl rfl
  · obtain ⟨rfl, rfl⟩ := pure_eq_ok.mp e
    exact binary_reads h _ htarget

theorem isMark_of_ternary : ∀ k : Kind, k.roles.ternary = true → k.isMark = true := by
  intro k
  cases k <;> decide

theorem middleBranch_reads (h : r.Read) {branch : Option Node} (e : middleBranch r s = .ok branch t) :
    Reads s 1 (branch.toList.map .part) t := by
  rcases eat_ite_eq_ok.mp e with ⟨hcolon, e⟩ | ⟨-, e⟩
  · obtain ⟨rfl, rfl⟩ := pure_eq_ok.mp e
    exact .mark hcolon rfl
  · simp only [bind_eq_ok, expect_eq_ok, pure_eq_ok] at e
    obtain ⟨value, u, hvalue, _, _, ⟨hcolon, -, rfl⟩, rfl, rfl⟩ := e
    exact ((h.expression hvalue).trans (.mark hcolon rfl)).weaken (by decide)

theorem expressionRule_reads (h : r.Read) : ReadsNode (expressionRule r) := by
  intro s n t e
  rw [expressionRule, here_bind] at e
  obtain ⟨condition, u, hcondition, e⟩ := bind_eq_ok.mp e
  rw [kind_bind] at e
  rcases ite_eq_ok.mp e with ⟨hop, e⟩ | ⟨-, e⟩
  · simp only [advance_bind, bind_eq_ok, close_eq_ok] at e
    obtain ⟨middle, _, hmiddle, last, _, hlast, rfl, rfl⟩ := e
    have hread := (assignment_reads h hcondition).trans ((Reads.mark rfl (isMark_of_ternary _ hop)).trans
      ((middleBranch_reads h hmiddle).trans (h.expression hlast)))
    exact hread.node (by decide) (by simp [Shape.pieces, Shape.toList]) rfl
  · obtain ⟨rfl, rfl⟩ := pure_eq_ok.mp e
    exact assignment_reads h hcondition

end BraceLang.Grammar
