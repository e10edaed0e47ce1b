import BraceLang.Proofs.Compilation.Locations
import BraceLang.Proofs.Grammar.Ranges
import BraceLang.Proofs.Grammar.Templates.Statements

/-! Templates of a program that is parsed without a diagnostic. The lexer finds where the holes are and marks only
    their ends, and the parser reads one expression after the other up to such an end. Each part of a template lies
    in one hole or outside of all of them, and no hole with code in it is passed over. But a hole may have more
    parts than one, as nothing has to stand between two expressions in it, and it has none if no code is in it. -/

namespace BraceLang

open Grammar

namespace Grammar.HollowText

/-- When no diagnostic is given, there is nothing wrong with the characters. -/
theorem errors_eq_nil_of_quiet {source : Source} (quiet : (parse source).2.toList = []) :
    (TokenStream.ofSource source).errors = [] := by
  have lexical := parse_lexical source
  rw [quiet] at lexical
  exact List.map_eq_nil_iff.mp lexical.symm

/-- A source that is parsed without a diagnostic. -/
def ofQuiet {source : Source} (quiet : (parse source).2.toList = []) : HollowText where
  source := source.id
  tokens := (TokenStream.ofSource source).tokens
  holes := source.holes
  ordered := TokenStream.ofSource_tokens_ordered source
  hollow := TokenStream.ofSource_hollow (errors_eq_nil_of_quiet quiet)

theorem ofQuiet_allSound {source : Source} (quiet : (parse source).2.toList = []) :
    (ofQuiet quiet).AllSound (parse source).1.items := by
  obtain ⟨items, t, hrun, -⟩ := statements_reach_end (Rules.within_read nestingLimit)
    (State.start (TokenStream.ofSource source))
  have hspares := Sparing.statements (Rules.within_spare (ofQuiet quiet) nestingLimit).statement false True
    (State.start (TokenStream.ofSource source))
  rw [hrun] at hspares
  have hparse := parse_eq hrun
  have hquiet : t.complaints = 0 := by
    rw [hparse] at quiet
    rw [State.complaints, quiet]
    rfl
  obtain ⟨-, -, hsound⟩ := (hspares (List.suffix_refl _)).2 rfl trivial hquiet
  rw [hparse]
  exact hsound

end Grammar.HollowText

/-- Every node of a program ends where it starts or behind it. -/
theorem parse_start_le_stop (source : Source) :
    ∀ n ∈ (parse source).1.items, n.Throughout fun n => n.range.start.pos ≤ n.range.stop.pos := by
  obtain ⟨sound, -⟩ := parse_conduct (.start (TokenStream.ofSource_within source))
  exact fun n hn => (sound n hn).located.imp fun _ hlocated => hlocated.range.start_le_stop

/-- In a program that is parsed without a diagnostic, the holes stand one behind the other, each between a mark and
    a brace. The parts of a template are in the order of the text. Each is text and apart from all holes, or it lies
    in a hole of the template. A hole of the template has a part if it has a token. And what is in the template is
    text of it or lies in a hole. -/
theorem parse_templates_threaded (source : Source) (quiet : (parse source).2.toList = []) :
    (∀ hole ∈ source.holes, hole.Marked source) ∧
    source.holes.Pairwise (fun hole later => hole.stop.pos < later.start.pos) ∧
    ∀ n ∈ (parse source).1.items.flatMap Node.preorder, ∀ parts, n.shape = .template parts →
      parts.Pairwise (fun p q => p.range.stop.pos ≤ q.range.start.pos) ∧
      (∀ p ∈ parts, (∃ text, p.shape = .str text) ∧ (∀ hole ∈ source.holes, hole.Apart p.range) ∨
        ∃ hole ∈ source.holes, n.range.contains hole = true ∧ hole.contains p.range = true) ∧
      (∀ hole ∈ source.holes, n.range.contains hole = true →
        ((∃ p ∈ parts, hole.contains p.range = true) ↔
          ∃ t ∈ (TokenStream.ofSource source).toList, hole.contains t.range = true)) ∧
      ∀ t ∈ (TokenStream.ofSource source).toList,
        n.range.start.pos < t.range.start.pos → t.range.stop.pos < n.range.stop.pos →
          t.kind = .templateText ∨ ∃ hole ∈ source.holes, hole.contains t.range = true := by
  refine ⟨source.holes_marked, (HollowText.ofQuiet quiet).hollow.ordered, fun n hn parts hparts => ?_⟩
  obtain ⟨item, hitem, hmem⟩ := List.mem_flatMap.mp hn
  have threads := (HollowText.ofQuiet_allSound quiet item hitem).of_mem_preorder hmem parts hparts
  have hollow := (HollowText.ofQuiet quiet).hollow
  have hchildren : ∀ p ∈ parts, p ∈ n.children := by
    rw [Node.children, hparts]
    exact fun _ hp => hp
  refine ⟨threads.ordered, fun p hp => ?_, fun hole hhole hrange => ⟨?_, ?_⟩, ?_⟩
  · rcases threads.placed p hp with htext | ⟨hole, hhole, hrange, -, hc⟩
    · exact .inl htext
    · exact .inr ⟨hole, hhole, hrange, hc⟩
  · rintro ⟨p, hp, hc⟩
    have stands := (((parse_start_le_stop source item hitem).subtree hmem).part (hchildren p hp)).here
    rcases threads.placed p hp with ⟨-, apart⟩ | ⟨hole', hh', -, ⟨t, ht, ht'⟩, hc'⟩
    · exact absurd hc ((apart hole hhole).not_contains stands)
    · obtain rfl := hollow.hole_unique hhole hh' stands hc hc'
      exact ⟨t.token, List.mem_map_of_mem ht, ht'⟩
  · rintro ⟨t, ht, hc⟩
    obtain ⟨lexed, hlexed, rfl⟩ := List.mem_map.mp ht
    exact threads.filled hole hhole hrange ⟨lexed, hlexed, hc⟩
  · exact List.forall_mem_map.mpr threads.covered

theorem parse_templates_threaded_name :
    ∃ n ∈ (parse (Source.ofText 0 "main" "`a$\x7bb\x7dc`;")).1.items.flatMap Node.preorder,
      ∃ parts, n.shape = .template parts ∧ parts.Pairwise (fun p q => p.range.stop.pos ≤ q.range.start.pos) ∧
      ∃ p ∈ parts, p.shape.tag = "ident" ∧ ∃ hole ∈ (Source.ofText 0 "main" "`a$\x7bb\x7dc`;").holes,
        hole.Marked (Source.ofText 0 "main" "`a$\x7bb\x7dc`;") ∧ n.range.contains hole = true ∧
        hole.contains p.range = true := by
  have quiet : (parse (Source.ofText 0 "main" "`a$\x7bb\x7dc`;")).2.toList = [] :=
    List.isEmpty_iff.mp (by decide +kernel)
  obtain ⟨n, hn, htemplate, p, hp, hname⟩ :
      ∃ n ∈ (parse (Source.ofText 0 "main" "`a$\x7bb\x7dc`;")).1.items.flatMap Node.preorder,
        n.shape.isTemplate = true ∧ ∃ p ∈ n.children, p.shape.tag = "ident" := by decide +kernel
  obtain ⟨parts, hparts⟩ := Shape.template_of_isTemplate htemplate
  obtain ⟨marked, -, templates⟩ := parse_templates_threaded _ quiet
  obtain ⟨ordered, placed, -, -⟩ := templates n hn parts hparts
  have hp' : p ∈ parts := by rwa [Node.children, hparts] at hp
  refine ⟨n, hn, parts, hparts, ordered, p, hp', hname, ?_⟩
  rcases placed p hp' with ⟨⟨text, hstr⟩, -⟩ | ⟨hole, hhole, hrange, hc⟩
  · rw [hstr] at hname
    have other : ("str" : String) ≠ "ident" := by decide
    exact absurd hname other
  · exact ⟨hole, hhole, marked hole hhole, hrange, hc⟩

/-- A hole can have two parts. -/
theorem parse_template_hole_shared :
    (parse (Source.ofText 0 "main" "`$\x7ba b\x7d`")).2.toList = [] ∧
    ∃ n ∈ (parse (Source.ofText 0 "main" "`$\x7ba b\x7d`")).1.items.flatMap Node.preorder,
      n.shape.isTemplate = true ∧ ∃ hole ∈ (Source.ofText 0 "main" "`$\x7ba b\x7d`").holes,
        n.range.contains hole = true ∧ n.children.countP (fun p => hole.contains p.range) = 2 :=
  ⟨List.isEmpty_iff.mp (by decide +kernel), by decide +kernel⟩

end BraceLang
