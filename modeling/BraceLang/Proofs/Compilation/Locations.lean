import BraceLang.Proofs.Binding.Origins
import BraceLang.Proofs.Binding.Resolution
import BraceLang.Proofs.Grammar.Formation
import BraceLang.Proofs.Grammar.Lookahead
import BraceLang.Proofs.Token.Genuine

/-! Every location that the work on a source gives out is one of its text. The tokens and what is wrong with
    the characters lie on the text (`TokenStream.ofSource_within`). Parsing makes its ranges of theirs, and
    binding makes none of its own, so what they name lies in the same area. -/

namespace BraceLang

open Grammar

/-- The ranges of the text of a source. -/
def Source.area (source : Source) : Area := ⟨Range.Genuine source, Range.Genuine.merge⟩

/-- The ranges of the pieces of the text of a source. -/
def Source.pieces (source : Source) : Area := ⟨Range.Piece source, Range.Piece.merge⟩

theorem TokenStream.ofSource_pieces (source : Source) :
    ∀ lexed ∈ (ofSource source).eof :: (ofSource source).tokens, lexed.Within source.pieces := by
  have tokens := (ofSource_lays source).pieces ⟨[], rfl, rfl⟩
  have errors : (Lexer.start source).Marks (ofSource source).errors :=
    (Lexer.start source).stream_errors_marked rfl ⟨[], rfl, rfl⟩
  obtain ⟨inside, atEnd⟩ := List.forall_mem_append.mp errors
  refine List.forall_mem_cons.mpr ⟨⟨?_, atEnd⟩, fun lexed hlexed => ⟨?_, fun e he => ?_⟩⟩
  · have eof : (ofSource source).eof.token = _ :=
      (Lexer.start source).stream_eof_token (Lexer.ready_start source)
    rw [eof]
    exact (Lexer.start source).endRange_piece
  · exact tokens _ (List.mem_map_of_mem hlexed)
  · exact inside e (List.mem_flatMap.mpr ⟨lexed, hlexed, he⟩)

theorem TokenStream.ofSource_within (source : Source) :
    ∀ lexed ∈ (ofSource source).eof :: (ofSource source).tokens, lexed.Within source.area :=
  fun lexed hlexed =>
    have pieces := ofSource_pieces source lexed hlexed
    ⟨Range.Piece.genuine pieces.token, fun e he => Range.Piece.genuine (pieces.errors e he)⟩

theorem Lexer.call_within (source : Source) (n : Nat) : ((Lexer.start source).call n).Within source.area := by
  have stream := TokenStream.ofSource_within source
  rw [Ring.call_eq, coming]
  cases h : upcoming? (TokenStream.ofSource source).eof (TokenStream.ofSource source).tokens n with
  | none => exact ⟨(stream _ List.mem_cons_self).token, List.forall_mem_nil _⟩
  | some lexed => exact stream lexed (mem_of_upcoming? h)

/-- All locations that the work on a source gives out are those of its text: those of its tokens and of what is
    wrong with them, however often the lexer is called, and those of the nodes, the names and the marks of the
    diagnostics of the parsed and of the bound program. -/
theorem locations_genuine (source : Source) :
    (∀ n, ((Lexer.start source).call n).token.range.Genuine source ∧
      ∀ d ∈ lexicalReports ((Lexer.start source).call n), ∀ label ∈ d.labels, label.range.Genuine source) ∧
    (∀ n ∈ (parse source).1.items.flatMap Node.preorder,
      n.range.Genuine source ∧ ∀ name ∈ n.shape.idents, name.range.Genuine source) ∧
    (∀ d ∈ (parse source).2.toList, ∀ label ∈ d.labels, label.range.Genuine source) ∧
    (∀ n ∈ (bind (parse source).1 (parse source).2).1.items.flatMap Node.preorder,
      n.range.Genuine source ∧ ∀ name ∈ n.shape.idents, name.range.Genuine source) ∧
    ∀ d ∈ (bind (parse source).1 (parse source).2).2.1.toList, ∀ label ∈ d.labels,
      label.range.Genuine source := by
  have start : (State.start (TokenStream.ofSource source)).Within source.area :=
    .start (TokenStream.ofSource_within source)
  obtain ⟨sound, t, goes, -, hlog⟩ := parse_conduct start
  have located (n : Node) (hn : n ∈ (parse source).1.items) : n.Throughout (Node.Located source.area) :=
    (sound n hn).located
  have log : ∀ d ∈ (parse source).2.toList, d.Within source.area := hlog ▸ (goes.within start).log
  refine ⟨fun n => ?_, fun n hn => ?_, log, fun n hn => ?_, ?_⟩
  · exact ⟨(Lexer.call_within source n).token, lexicalReports_within (Lexer.call_within source n)⟩
  · obtain ⟨item, hitem, hn⟩ := List.mem_flatMap.mp hn
    have hlocated := (located item hitem).of_mem_preorder hn
    exact ⟨hlocated.range, hlocated.names⟩
  · have hlocated := bind_located located (parse source).2 n hn
    exact ⟨hlocated.range, hlocated.names⟩
  · exact bind_within (Lexical.parse_properMembers source) (parse_unlinked source) located log

end BraceLang
