import BraceLang.Proofs.Grammar.Makes.Statements
import BraceLang.Proofs.Token.Keywords

/-! The nodes of a parsed program, whatever is wrong with its text: every one is well formed, none is
    linked, and no two jumps start at the same place. -/

namespace BraceLang

namespace Grammar

variable {s t : State} {ns : List Node}

/-- What holds of every well-formed node without a link holds throughout what is made. -/
theorem Makes.throughout {P : Node → Prop} (h : Makes s ns t)
    (hP : ∀ id range shape, shape.WellFormed → P ⟨id, range, none, shape⟩) : ∀ n ∈ ns, n.Throughout P := by
  induction h with
  | pass _ => exact List.forall_mem_nil _
  | both _ _ ih ih' => exact List.forall_mem_append.mpr ⟨ih, ih'⟩
  | node _ formed _ ih => exact List.forall_mem_singleton.mpr (.mk (hP _ _ _ formed) ih)
  | jump _ _ formed _ ih => exact List.forall_mem_singleton.mpr (.mk (hP _ _ _ formed) ih)

/-! ### Jumps -/

theorem State.start_rangeFrom (s : State) (start : Range) : (s.rangeFrom start).start = start.start := by
  unfold rangeFrom
  split
  · split <;> rfl
  · rfl

/-- Where the jumps among some nodes start, in order. -/
def jumpStarts (ns : List Node) : List Nat :=
  ((ns.flatMap Node.preorder).filter (·.shape.isJump)).map (·.range.start.pos)

theorem jumpStarts_append (ns ms : List Node) : jumpStarts (ns ++ ms) = jumpStarts ns ++ jumpStarts ms := by
  simp only [jumpStarts, List.flatMap_append, List.filter_append, List.map_append]

theorem jumpStarts_singleton (n : Node) :
    jumpStarts [n] = (if n.shape.isJump = true then [n.range.start.pos] else []) ++ jumpStarts n.children := by
  rw [jumpStarts, List.flatMap_singleton, Node.preorder_eq, List.filter_cons]
  split <;> rfl

/-- Jumps start at keywords, one after another. -/
theorem Makes.jumps (h : Makes s ns t) : ∃ taken, s.ahead = taken ++ t.ahead ∧
    List.Sublist (jumpStarts ns) ((taken.filter (·.token.kind.isJump)).map (·.token.range.start.pos)) := by
  induction h with
  | pass h =>
    obtain ⟨taken, htaken⟩ := h.ahead
    exact ⟨taken, htaken.symm, List.nil_sublist _⟩
  | both _ _ ih ih' =>
    obtain ⟨taken, htaken, hstarts⟩ := ih
    obtain ⟨more, hmore, hstarts'⟩ := ih'
    refine ⟨taken ++ more, by rw [htaken, hmore, List.append_assoc], ?_⟩
    rw [jumpStarts_append, List.filter_append, List.map_append]
    exact hstarts.append hstarts'
  | node _ _ plain ih =>
    obtain ⟨taken, htaken, hstarts⟩ := ih
    refine ⟨taken, htaken, ?_⟩
    rw [jumpStarts_singleton, if_neg (by rw [plain]; exact Bool.false_ne_true)]
    exact hstarts
  | @jump s t shape keyword _ _ jumps ih =>
    -- The keyword is taken before the parts, and the jump starts where it does.
    obtain ⟨taken, htaken, hstarts⟩ := ih
    have hkind : s.kind ≠ .eof := by
      intro hk
      rw [hk] at keyword
      cases keyword
    obtain ⟨lexed, rest, hahead, hcurrent⟩ := State.ahead_of_kind_ne hkind
    have hlexed : lexed.token.kind.isJump = true := by
      rw [← hcurrent]
      exact keyword
    refine ⟨lexed :: taken, ?_, ?_⟩
    · replace htaken : s.ahead.tail = taken ++ t.ahead := htaken
      rw [hahead, List.tail_cons] at htaken
      rw [hahead, htaken, List.cons_append]
      rfl
    · have hfilter : (lexed :: taken).filter (·.token.kind.isJump) =
          lexed :: taken.filter (·.token.kind.isJump) := List.filter_cons_of_pos hlexed
      rw [jumpStarts_singleton, if_pos jumps, State.start_rangeFrom, hcurrent, hfilter]
      exact hstarts.cons_cons _

theorem Kind.keyword_of_isJump {k : Kind} (h : k.isJump = true) : k.roles.keyword = true := by
  cases k <;> first | rfl | cases h

end Grammar

open Grammar

theorem parse_unlinked (source : Source) :
    ∀ n ∈ (parse source).1.items, n.Throughout fun n => n.resolved = none := by
  obtain ⟨t, hmakes, -⟩ := parse_makes source
  exact hmakes.throughout fun _ _ _ _ => rfl

theorem parse_formed (source : Source) :
    ∀ n ∈ (parse source).1.items, n.Throughout fun n => n.shape.WellFormed := by
  obtain ⟨t, hmakes, -⟩ := parse_makes source
  exact hmakes.throughout fun _ _ _ formed => formed

/-- No two jumps of a program start at the same place. -/
theorem parse_jumps_apart (source : Source) : (jumpStarts (parse source).1.items).Pairwise (· < ·) := by
  obtain ⟨t, hmakes, -⟩ := parse_makes source
  obtain ⟨taken, htaken, hstarts⟩ := hmakes.jumps
  have hkeywords := TokenStream.ofSource_keywords_apart source
  have htokens : (TokenStream.ofSource source).tokens = taken ++ t.ahead := htaken
  rw [List.pairwise_filter, TokenStream.toList, htokens, List.pairwise_map] at hkeywords
  refine List.Pairwise.sublist hstarts (List.pairwise_map.mpr (List.pairwise_filter.mpr ?_))
  refine (hkeywords.sublist (List.sublist_append_left _ _)).imp fun hlt hj hj' => ?_
  exact hlt (Kind.keyword_of_isJump hj) (Kind.keyword_of_isJump hj')

/-- Whatever is wrong with a text, the program read from it is well formed: its items are statements, in
    every node the parts may stand where they do and the construct is as its rules ask, and a field with
    its value stands only among the fields of a struct literal. -/
theorem parse_wellFormed (source : Source) :
    (∀ n ∈ (parse source).1.items, n.shape.isStatement = true) ∧
    (∀ n ∈ (parse source).1.items.flatMap Node.preorder, n.shape.WellFormed) ∧
    ∀ n ∈ (parse source).1.items.flatMap Node.preorder, ∀ c ∈ n.children, c.shape.isFieldInit = true →
      ∃ path fields, n.shape = .structLiteral path fields ∧ c ∈ fields := by
  obtain ⟨t, hkept, -⟩ := parse_kept source
  have hmakes := hkept.makes
  rw [map_snd_each] at hmakes
  have formed : ∀ n ∈ (parse source).1.items.flatMap Node.preorder, n.shape.WellFormed := by
    intro n hn
    obtain ⟨item, hitem, hn⟩ := List.mem_flatMap.mp hn
    have hitem := hmakes.throughout (P := fun n => n.shape.WellFormed) (fun _ _ _ formed => formed) item hitem
    exact hitem.of_mem_preorder hn
  refine ⟨fun n hn => hkept.holds (.statement, n) (mem_each.mpr ⟨rfl, hn⟩), formed, ?_⟩
  exact fun n hn c hc hfield => (formed n hn).structLiteral_of_fieldInit hc hfield

end BraceLang
