import BraceLang.Proofs.Grammar.Spans.Statements
import BraceLang.Proofs.Token.Stream

/-! The ranges of a parsed program nest, whatever is wrong with its text: a node contains the names it holds
    and its parts. The exception is an asynchronous closure at the start of a statement. It starts at its
    `async`, and what is put behind it as an operator or a suffix starts only at the `func` after that.
    Siblings lie in a row all the same. -/

namespace BraceLang

open Grammar

theorem TokenStream.ofSource_tokens_ordered (source : Source) :
    Ordered source.id (TokenStream.ofSource source).tokens := by
  obtain ⟨stands, apart⟩ := ofSource_ordered source
  have token {lexed : Lexed} (h : lexed ∈ (ofSource source).tokens) : lexed.token.Stands source 0 :=
    stands lexed.token (List.mem_map_of_mem h)
  exact ⟨fun _ h => (token h).source_eq, fun _ h => (token h).start_le_stop, List.pairwise_map.mp apart⟩

theorem parse_placed (source : Source) :
    ∃ taken, (Hand.nodes (parse source).1.items).Placed source.id none taken := by
  obtain ⟨items, t, hrun, -⟩ := statements_reach_end (Rules.within_read nestingLimit)
    (State.start (TokenStream.ofSource source))
  have hrules := Rules.within_settle source.id nestingLimit
  have hitems := statements_scattered hrules.statement hrules.moves hrun
    (TokenStream.ofSource_tokens_ordered source) rfl
  obtain ⟨taken, -, hplaced⟩ := hitems.placed
  rw [parse_eq hrun]
  exact ⟨taken, hplaced⟩

theorem parse_fits (source : Source) : ∀ n ∈ (parse source).1.items, n.Throughout Node.Fits := by
  obtain ⟨taken, hplaced⟩ := parse_placed source
  exact hplaced.fits

/-- A part that does not lie inside its node only starts too early. -/
theorem Range.start_lt_of_contains_eq_false {outer inner : Range} (h : outer.contains inner = false)
    (hsource : inner.source = outer.source) (hstop : inner.stop.pos ≤ outer.stop.pos) :
    inner.start.pos < outer.start.pos := by
  simpa [contains, hsource, hstop] using h

/-- Every node of a program contains the names that it holds and its parts. Only an asynchronous closure that
    is the leading operand of the node may lie outside, and then it starts before the node and ends in it. -/
theorem parse_ranges_nest (source : Source) : ∀ n ∈ (parse source).1.items.flatMap Node.preorder,
    (∀ name ∈ n.shape.idents, n.range.contains name.range = true) ∧
    ∀ c ∈ n.children, n.range.contains c.range = true ∨
      n.shape.leading? = some c ∧ c.shape.isAsyncClosure = true ∧ c.range.source = n.range.source ∧
        c.range.start.pos < n.range.start.pos ∧ c.range.stop.pos ≤ n.range.stop.pos := by
  intro n hn
  obtain ⟨item, hitem, hn⟩ := List.mem_flatMap.mp hn
  have fits : n.Fits := (parse_fits source item hitem).of_mem_preorder hn
  refine ⟨fits.names, fun c hc => ?_⟩
  rcases fits.parts c hc with hinside | ⟨hleading, hclosure, hsource, hstop⟩
  · exact .inl hinside
  · refine (Bool.eq_false_or_eq_true (n.range.contains c.range)).imp id fun houtside => ?_
    exact ⟨hleading, hclosure, hsource, Range.start_lt_of_contains_eq_false houtside hsource hstop, hstop⟩

theorem parse_ranges_nest_closure :
    ∃ n ∈ (parse (Source.ofText 0 "main" "async func() \x7b\x7d + 1;")).1.items.flatMap Node.preorder,
      ∃ c ∈ n.children, n.shape.leading? = some c ∧ c.range.start.pos < n.range.start.pos ∧
        c.range.stop.pos ≤ n.range.stop.pos := by
  obtain ⟨n, hn, c, hc, houtside⟩ :
      ∃ n ∈ (parse (Source.ofText 0 "main" "async func() \x7b\x7d + 1;")).1.items.flatMap Node.preorder,
        ∃ c ∈ n.children, n.range.contains c.range = false := by decide +kernel
  obtain ⟨-, parts⟩ := parse_ranges_nest _ n hn
  rcases parts c hc with hinside | ⟨hleading, -, -, hstart, hstop⟩
  · rw [houtside] at hinside
    cases hinside
  · exact ⟨n, hn, c, hc, hleading, hstart, hstop⟩

/-- Here the call starts at the `func` after the `async`, and the closure that is called at the `async`. -/
theorem parse_range_outside :
    ∃ n ∈ (parse (Source.ofText 0 "main" "async func() \x7b\x7d();")).1.items.flatMap Node.preorder,
      ∃ c ∈ n.children, n.range.start.pos = 6 ∧ c.range.start.pos = 0 ∧ n.range.contains c.range = false := by
  decide +kernel

/-- The items of a program lie one behind the other, and so do the parts of each of its nodes: no sibling
    starts before the one in front of it ends. A walk that takes parents before their parts meets them in
    this order, and so by where they start. -/
theorem parse_siblings_in_row (source : Source) :
    let items := (parse source).1.items
    let walk := items.flatMap Node.preorder
    ∀ siblings ∈ items :: walk.map Node.children, Node.InRow siblings ∧ List.Sublist siblings walk ∧
      siblings.Pairwise fun n m => n.range.start.pos ≤ m.range.start.pos := by
  intro items walk siblings hsiblings
  have row : Node.InRow siblings ∧ List.Sublist siblings walk := by
    rcases List.mem_cons.mp hsiblings with rfl | hsiblings
    · obtain ⟨taken, hplaced⟩ := parse_placed source
      exact ⟨hplaced.row, Node.sublist_flatMap_preorder items⟩
    · obtain ⟨n, hn, rfl⟩ := List.mem_map.mp hsiblings
      obtain ⟨item, hitem, hn⟩ := List.mem_flatMap.mp hn
      have fits : n.Fits := (parse_fits source item hitem).of_mem_preorder hn
      exact ⟨fits.row, (item.children_sublist_preorder n hn).trans (Node.preorder_sublist hitem)⟩
  exact ⟨row.1, row.2, row.1.starts⟩

end BraceLang
