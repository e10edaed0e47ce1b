import BraceLang.Proofs.Grammar.Levels
import BraceLang.Proofs.Node.Depth

/-! Where things lie. A node reaches from the first to the last token that its rule takes, so it contains
    whatever is read in between (`Held`): the names it holds and its parts. What is read later is made of
    later tokens, so the parts lie in a row.

    An `async` at the start of a statement is taken before it is known whose it is. If it turns out to belong
    to a closure, the closure starts there, but what is put behind the closure as an operator or a suffix
    starts only after it (`Early`). -/

namespace BraceLang

namespace Shape
variable {α : Type}

/-- The names that a construct holds itself, in source order. -/
def idents : Shape α → List Ident
  | dot n | fieldInit n _ | param n _ _ | func _ _ _ n .. | typeAlias _ _ n .. | union _ _ n .. | enum _ _ n ..
  | enumOption _ n _ | struct _ _ n .. | field _ _ n .. | generic n _ => [n]
  | var _ _ _ pattern .. => pattern.names
  | named head path _ => head :: path
  | _ => []

/-- The operand that an operator or a suffix is put behind. -/
def leading? : Shape α → Option α
  | assign _ x _ | ternary x _ _ => some x
  | shape => shape.stem?

/-- Whether the construct is a closure marked `async`. -/
def isAsyncClosure : Shape α → Bool
  | closure isAsync _ _ => isAsync
  | _ => false

end Shape

/-- The nodes lie one behind the other. -/
structure Node.InRow (ns : List Node) : Prop where
  start_le_stop : ∀ n ∈ ns, n.range.start.pos ≤ n.range.stop.pos
  apart : ns.Pairwise fun n m => n.range.stop.pos ≤ m.range.start.pos

namespace Node.InRow
variable {n : Node} {ns ms : List Node}

theorem nil : InRow [] := ⟨List.forall_mem_nil _, .nil⟩

theorem singleton (h : n.range.start.pos ≤ n.range.stop.pos) : InRow [n] :=
  ⟨List.forall_mem_singleton.mpr h, List.pairwise_singleton _ n⟩

theorem append (hns : InRow ns) (hms : InRow ms)
    (h : ∀ n ∈ ns, ∀ m ∈ ms, n.range.stop.pos ≤ m.range.start.pos) : InRow (ns ++ ms) where
  start_le_stop := List.forall_mem_append.mpr ⟨hns.start_le_stop, hms.start_le_stop⟩
  apart := List.pairwise_append.mpr ⟨hns.apart, hms.apart, h⟩

/-- What lies in a row starts in that order. -/
theorem starts (h : InRow ns) : ns.Pairwise fun n m => n.range.start.pos ≤ m.range.start.pos :=
  h.apart.imp_of_mem fun hn _ hapart => Nat.le_trans (h.start_le_stop _ hn) hapart

end Node.InRow

/-- The names and the parts of a node lie inside it, except that a leading closure may start before it. The
    parts lie in a row. -/
structure Node.Fits (n : Node) : Prop where
  names : ∀ name ∈ n.shape.idents, n.range.contains name.range = true
  parts : ∀ c ∈ n.children, n.range.contains c.range = true ∨
    n.shape.leading? = some c ∧ c.shape.isAsyncClosure = true ∧ c.range.source = n.range.source ∧
      c.range.stop.pos ≤ n.range.stop.pos
  row : InRow n.children

namespace Grammar

variable {source : Nat} {ts us : List Lexed} {first last : Lexed} {range inner : Range}

/-! ### Tokens in order -/

/-- The tokens are of one source and follow each other. -/
structure Ordered (source : Nat) (ts : List Lexed) : Prop where
  source_eq : ∀ t ∈ ts, t.token.range.source = source
  start_le_stop : ∀ t ∈ ts, t.token.range.start.pos ≤ t.token.range.stop.pos
  apart : ts.Pairwise fun t u => t.token.range.stop.pos ≤ u.token.range.start.pos

namespace Ordered

theorem sublist (h : Ordered source us) (hts : List.Sublist ts us) : Ordered source ts where
  source_eq t ht := h.source_eq t (hts.subset ht)
  start_le_stop t ht := h.start_le_stop t (hts.subset ht)
  apart := h.apart.sublist hts

theorem left (h : Ordered source (ts ++ us)) : Ordered source ts := h.sublist (List.sublist_append_left ts us)

theorem right (h : Ordered source (ts ++ us)) : Ordered source us := h.sublist (List.sublist_append_right ts us)

theorem first_le (h : Ordered source (first :: ts)) {t : Lexed} (ht : t ∈ first :: ts) :
    first.token.range.start.pos ≤ t.token.range.start.pos := by
  rcases List.mem_cons.mp ht with rfl | ht
  · exact Nat.le_refl _
  · exact Nat.le_trans (h.start_le_stop first List.mem_cons_self) (List.rel_of_pairwise_cons h.apart ht)

theorem le_last (h : Ordered source (ts ++ [last])) {t : Lexed} (ht : t ∈ ts ++ [last]) :
    t.token.range.stop.pos ≤ last.token.range.stop.pos := by
  rcases List.mem_append.mp ht with ht | ht
  · have before := (List.pairwise_append.mp h.apart).2.2 t ht last (List.mem_singleton_self last)
    exact Nat.le_trans before (h.start_le_stop last List.mem_concat_self)
  · exact Nat.le_of_eq (congrArg (·.token.range.stop.pos) (List.mem_singleton.mp ht))

end Ordered

/-- The range starts no earlier than one of the tokens and ends no later than one of them. -/
structure Inside (source : Nat) (ts : List Lexed) (range : Range) : Prop where
  source_eq : range.source = source
  starts : ∃ t ∈ ts, t.token.range.start.pos ≤ range.start.pos
  stops : ∃ t ∈ ts, range.stop.pos ≤ t.token.range.stop.pos

theorem Inside.mono (h : Inside source ts range) (hts : ts ⊆ us) : Inside source us range where
  source_eq := h.source_eq
  starts := h.starts.imp fun _ => And.imp_left (hts ·)
  stops := h.stops.imp fun _ => And.imp_left (hts ·)

theorem Inside.token (h : Ordered source ts) {t : Lexed} (ht : t ∈ ts) : Inside source ts t.token.range :=
  ⟨h.source_eq t ht, ⟨t, ht, Nat.le_refl _⟩, ⟨t, ht, Nat.le_refl _⟩⟩

/-- The range reaches from the first of the tokens to the last. -/
structure Spans (source : Nat) (ts : List Lexed) (range : Range) : Prop where
  inside : Inside source ts range
  start_le : ∀ t ∈ ts, range.start.pos ≤ t.token.range.start.pos
  le_stop : ∀ t ∈ ts, t.token.range.stop.pos ≤ range.stop.pos

namespace Spans

theorem stop_le (h : Spans source ts range) (hstops : ∃ t ∈ ts, inner.stop.pos ≤ t.token.range.stop.pos) :
    inner.stop.pos ≤ range.stop.pos := by
  obtain ⟨t, ht, hstop⟩ := hstops
  exact Nat.le_trans hstop (h.le_stop t ht)

theorem start_le_stop (h : Spans source ts range) (hordered : Ordered source ts) :
    range.start.pos ≤ range.stop.pos := by
  obtain ⟨t, ht, -⟩ := h.inside.starts
  calc range.start.pos
      ≤ t.token.range.start.pos := h.start_le t ht
    _ ≤ t.token.range.stop.pos := hordered.start_le_stop t ht
    _ ≤ range.stop.pos := h.le_stop t ht

theorem contains (h : Spans source ts range) (hinner : Inside source ts inner) :
    range.contains inner = true := by
  obtain ⟨t, ht, hstart⟩ := hinner.starts
  have hsource : range.source = inner.source := h.inside.source_eq.trans hinner.source_eq.symm
  have hstarts : range.start.pos ≤ inner.start.pos := Nat.le_trans (h.start_le t ht) hstart
  simp [Range.contains, hsource, hstarts, h.stop_le hinner.stops]

end Spans

/-- What starts at the first token and is closed after the last spans them. -/
theorem rangeFrom_spans {s : State} (h : Ordered source (first :: ts))
    (hlast : (first :: ts).getLast? = some last) (hs : s.lastRange = some last.token.range) :
    Spans source (first :: ts) (s.rangeFrom first.token.range) := by
  obtain ⟨before, hbefore⟩ := List.getLast?_eq_some_iff.mp hlast
  have hfirst : first ∈ first :: ts := List.mem_cons_self
  have hmem : last ∈ first :: ts := List.mem_of_getLast? hlast
  have hstop (t : Lexed) (ht : t ∈ first :: ts) : t.token.range.stop.pos ≤ last.token.range.stop.pos := by
    rw [hbefore] at h ht
    exact h.le_last ht
  have hsource := (h.source_eq first hfirst).trans (h.source_eq last hmem).symm
  have hrange : s.rangeFrom first.token.range = first.token.range.merge last.token.range := by
    rw [State.rangeFrom, hs]
    exact if_pos ⟨hsource, h.first_le hmem⟩
  have hends : (first.token.range.merge last.token.range).stop.pos = last.token.range.stop.pos := by
    have hle := hstop first hfirst
    show (if _ then _ else _ : Location).pos = _
    split <;> omega
  rw [hrange]
  exact {
    inside := ⟨h.source_eq first hfirst, ⟨first, hfirst, Nat.le_refl _⟩, ⟨last, hmem, Nat.le_of_eq hends⟩⟩
    start_le := fun t ht => h.first_le ht
    le_stop := fun t ht => Nat.le_trans (hstop t ht) (Nat.le_of_eq hends.symm) }

/-! ### What is at hand -/

/-- The names and nodes read since a place, and whether a token has been taken for certain. -/
structure Hand where
  begun : Bool
  names : List Range
  parts : List Node

namespace Hand

def empty : Hand := ⟨false, [], []⟩

/-- One node, which takes a token at least. -/
def node (n : Node) : Hand := ⟨true, [], [n]⟩

def nodes (ns : List Node) : Hand := ⟨false, [], ns⟩

def ident (name : Ident) : Hand := ⟨true, [name.range], []⟩

def idents (names : List Ident) : Hand := ⟨false, names.map (·.range), []⟩

/-- The same with a token taken. -/
def begin (hand : Hand) : Hand := { hand with begun := true }

def withNode (hand : Hand) (n : Node) : Hand := ⟨true, hand.names, hand.parts ++ [n]⟩

def withNodes (hand : Hand) (ns : List Node) : Hand := { hand with parts := hand.parts ++ ns }

def withIdent (hand : Hand) (name : Ident) : Hand := ⟨true, hand.names ++ [name.range], hand.parts⟩

def withIdents (hand : Hand) (names : List Ident) : Hand :=
  { hand with names := hand.names ++ names.map (·.range) }

/-- What has to be at hand to form a construct. -/
def ofShape (shape : Shape Node) : Hand := ⟨true, shape.idents.map (·.range), shape.toList⟩

instance : Append Hand := ⟨fun a b => ⟨a.begun || b.begun, a.names ++ b.names, a.parts ++ b.parts⟩⟩

/-- The first hand is the second, of which less may be known. -/
structure Covers (hand other : Hand) : Prop where
  begun : other.begun = true → hand.begun = true
  names : other.names = hand.names
  parts : other.parts = hand.parts

theorem Covers.refl (hand : Hand) : hand.Covers hand := ⟨id, rfl, rfl⟩

/-- It need not be known that a token has been taken. -/
theorem Covers.forget {hand other : Hand} (h : other = { hand with begun := false }) : hand.Covers other := by
  subst h
  exact ⟨Bool.noConfusion, rfl, rfl⟩

theorem Covers.push {ns : Array Node} {n : Node} :
    (withNode (nodes ns.toList) n).Covers (nodes (ns.push n).toList) :=
  forget (congrArg nodes Array.toList_push)

theorem Covers.pushIdent {names : Array Ident} {name : Ident} :
    (withIdent (idents names.toList) name).Covers (idents (names.push name).toList) := by
  refine forget ?_
  rw [idents, Array.toList_push, List.map_append]
  rfl

end Hand

/-- The node is a closure that starts at an `async` before the tokens. -/
structure Early (source : Nat) (lead : Option Range) (ts : List Lexed) (n : Node) : Prop where
  closure : n.shape.isAsyncClosure = true
  source_eq : n.range.source = source
  starts : ∃ r, lead = some r ∧ r.start.pos ≤ n.range.start.pos
  stops : ∃ t ∈ ts, n.range.stop.pos ≤ t.token.range.stop.pos

theorem Early.mono {lead : Option Range} {n : Node} (h : Early source lead ts n) (hts : ts ⊆ us) :
    Early source lead us n := { h with stops := h.stops.imp fun _ => And.imp_left (hts ·) }

/-- What is at hand was read from the tokens. Only the first node may start before them, at `lead`. -/
structure Hand.Placed (source : Nat) (lead : Option Range) (ts : List Lexed) (hand : Hand) : Prop where
  begun : hand.begun = true → ts ≠ []
  names : ∀ range ∈ hand.names, Inside source ts range
  fits : ∀ c ∈ hand.parts, c.Throughout Node.Fits
  parts : ∀ c ∈ hand.parts, Inside source ts c.range ∨ hand.parts.head? = some c ∧ Early source lead ts c
  row : Node.InRow hand.parts

namespace Hand.Placed
variable {lead : Option Range} {hand more other : Hand}

theorem empty : Hand.empty.Placed source lead [] where
  begun := Bool.noConfusion
  names := List.forall_mem_nil _
  fits := List.forall_mem_nil _
  parts := List.forall_mem_nil _
  row := .nil

theorem covers (h : hand.Placed source lead ts) (hc : hand.Covers other) : other.Placed source lead ts where
  begun hbegun := h.begun (hc.begun hbegun)
  names := hc.names ▸ h.names
  fits := hc.parts ▸ h.fits
  parts := hc.parts ▸ h.parts
  row := hc.parts ▸ h.row

theorem mono (h : hand.Placed source lead ts) (hts : ts ⊆ us) : hand.Placed source lead us where
  begun hbegun hnil := h.begun hbegun (List.subset_nil.mp (hnil ▸ hts))
  names range hr := (h.names range hr).mono hts
  fits := h.fits
  parts c hc := (h.parts c hc).imp (·.mono hts) (And.imp_right (·.mono hts))
  row := h.row

/-- Without an `async` before them, all nodes lie inside the tokens. -/
theorem inside (h : hand.Placed source none ts) : ∀ c ∈ hand.parts, Inside source ts c.range := by
  intro c hc
  rcases h.parts c hc with hinside | ⟨-, hearly⟩
  · exact hinside
  · obtain ⟨r, hr, -⟩ := hearly.starts
    cases hr

/-- Every node ends no later than one of the tokens. -/
theorem stops (h : hand.Placed source lead ts) :
    ∀ c ∈ hand.parts, ∃ t ∈ ts, c.range.stop.pos ≤ t.token.range.stop.pos := by
  intro c hc
  rcases h.parts c hc with hinside | ⟨-, hearly⟩
  · exact hinside.stops
  · exact hearly.stops

theorem append (hordered : Ordered source (ts ++ us)) (h : hand.Placed source lead ts)
    (h' : more.Placed source none us) : (hand ++ more).Placed source lead (ts ++ us) where
  begun hbegun hnil := by
    obtain ⟨hts, hus⟩ := List.append_eq_nil_iff.mp hnil
    rcases (Bool.or_eq_true _ _).mp hbegun with hbegun | hbegun
    · exact h.begun hbegun hts
    · exact h'.begun hbegun hus
  names := List.forall_mem_append.mpr
    ⟨fun range hr => (h.names range hr).mono (List.subset_append_left ts us),
      fun range hr => (h'.names range hr).mono (List.subset_append_right ts us)⟩
  fits := List.forall_mem_append.mpr ⟨h.fits, h'.fits⟩
  parts := by
    refine List.forall_mem_append.mpr ⟨fun c hc => ?_, fun c hc => ?_⟩
    · rcases h.parts c hc with hinside | ⟨hhead, hearly⟩
      · exact .inl (hinside.mono (List.subset_append_left ts us))
      · refine .inr ⟨?_, hearly.mono (List.subset_append_left ts us)⟩
        show (hand.parts ++ more.parts).head? = some c
        rw [List.head?_append, hhead]
        rfl
    · exact .inl ((h'.inside c hc).mono (List.subset_append_right ts us))
  row := by
    refine h.row.append h'.row fun c hc d hd => ?_
    obtain ⟨t, ht, hstop⟩ := h.stops c hc
    obtain ⟨u, hu, hstart⟩ := (h'.inside d hd).starts
    calc c.range.stop.pos
        ≤ t.token.range.stop.pos := hstop
      _ ≤ u.token.range.start.pos := (List.pairwise_append.mp hordered.apart).2.2 t ht u hu
      _ ≤ d.range.start.pos := hstart

end Hand.Placed

/-- What has been read since a place. -/
structure Held (source : Nat) (o : State) (hand : Hand) (s : State) : Prop where
  ordered : Ordered source o.ahead
  idle : s.pendingAsync = none
  placed : ∃ taken, o.ahead = taken ++ s.ahead ∧
    s.lastRange = (taken.getLast?.map (·.token.range)).or o.lastRange ∧ hand.Placed source o.pendingAsync taken

variable {o s t u : State} {hand more other : Hand} {shape : Shape Node}

namespace Held

theorem refl (h : Ordered source s.ahead) (hs : s.pendingAsync = none) : Held source s .empty s :=
  ⟨h, hs, [], rfl, rfl, .empty⟩

theorem covers (h : Held source o hand s) (hc : hand.Covers other) : Held source o other s := by
  obtain ⟨taken, hahead, hlast, hplaced⟩ := h.placed
  exact ⟨h.ordered, h.idle, taken, hahead, hlast, hplaced.covers hc⟩

theorem ordered_here (h : Held source o hand s) : Ordered source s.ahead := by
  obtain ⟨taken, hahead, -⟩ := h.placed
  exact (hahead ▸ h.ordered).right

theorem append (h : Held source o hand s) (h' : Held source s more t) : Held source o (hand ++ more) t := by
  obtain ⟨taken, hahead, hlast, hplaced⟩ := h.placed
  obtain ⟨rest, hahead', hlast', hplaced'⟩ := h'.placed
  rw [h.idle] at hplaced'
  have hall : o.ahead = taken ++ rest ++ t.ahead := by rw [hahead, hahead', List.append_assoc]
  have hordered : Ordered source (taken ++ rest) := (hall ▸ h.ordered).left
  refine ⟨h.ordered, h'.idle, taken ++ rest, hall, ?_, hplaced.append hordered hplaced'⟩
  rw [hlast', hlast, List.getLast?_append, Option.map_or, Option.or_assoc]

/-- One token is taken, of which at most the range is kept. -/
theorem token (h : Ordered source s.ahead) (hs : s.pendingAsync = none) (hk : s.kind ≠ .eof)
    (hnames : ∀ range ∈ hand.names, range = s.current.range) (hparts : hand.parts = []) :
    Held source s hand s.advance := by
  obtain ⟨lexed, rest, hahead, hcurrent⟩ := State.ahead_of_kind_ne hk
  have hone : Ordered source [lexed] := by
    rw [hahead] at h
    exact h.sublist (List.singleton_sublist.mpr List.mem_cons_self)
  refine ⟨h, hs, [lexed], ?_, ?_, fun _ => List.cons_ne_nil _ _, fun range hrange => ?_, ?_, ?_, ?_⟩
  · show s.ahead = [lexed] ++ s.ahead.tail
    rw [hahead]
    rfl
  · show some s.current.range = some lexed.token.range
    rw [hcurrent]
  · rw [hnames range hrange, hcurrent]
    exact .token hone (List.mem_singleton_self lexed)
  · rw [hparts]
    exact List.forall_mem_nil _
  · rw [hparts]
    exact List.forall_mem_nil _
  · rw [hparts]
    exact .nil

theorem mark (h : Held source o hand s) (hk : s.kind ≠ .eof) : Held source o hand.begin s.advance := by
  have hmark : Held source s ⟨true, [], []⟩ s.advance :=
    token h.ordered_here h.idle hk (List.forall_mem_nil _) rfl
  exact (h.append hmark).covers
    ⟨fun _ => Bool.or_true _, (List.append_nil _).symm, (List.append_nil _).symm⟩

/-- The tokens taken since a place, of which there is one, and what they span. -/
theorem spans (h : Held source o hand s) (hbegun : hand.begun = true) :
    ∃ taken, o.ahead = taken ++ s.ahead ∧ s.lastRange = (taken.getLast?.map (·.token.range)).or o.lastRange ∧
      hand.Placed source o.pendingAsync taken ∧ Spans source taken (s.rangeFrom o.current.range) := by
  obtain ⟨taken, hahead, hlast, hplaced⟩ := h.placed
  refine ⟨taken, hahead, hlast, hplaced, ?_⟩
  have hordered := (hahead ▸ h.ordered).left
  cases htaken : taken with
  | nil => exact absurd htaken (hplaced.begun hbegun)
  | cons first rest =>
    have hcurrent : o.current = first.token := by
      rw [State.current, hahead, htaken]
      rfl
    have hne : first :: rest ≠ [] := List.cons_ne_nil first rest
    obtain ⟨last, hlasts⟩ := Option.isSome_iff_exists.mp (List.getLast?_isSome.mpr hne)
    rw [htaken] at hordered hlast
    rw [hlasts] at hlast
    rw [hcurrent]
    exact rangeFrom_spans hordered hlasts hlast

/-- A construct of which everything is at hand fits around it. -/
theorem fits (hspans : Spans source ts range) {lead : Option Range}
    (hplaced : (Hand.ofShape shape).Placed source lead ts)
    (hlead : lead = none ∨ shape.leading? = shape.toList.head?) (id : NodeId) :
    (⟨id, range, none, shape⟩ : Node).Throughout Node.Fits := by
  refine .mk ⟨fun name hname => ?_, fun c hc => ?_, hplaced.row⟩ hplaced.fits
  · exact hspans.contains (hplaced.names name.range (List.mem_map_of_mem hname))
  · rcases hplaced.parts c hc with hinside | ⟨hhead, hearly⟩
    · exact .inl (hspans.contains hinside)
    · refine .inr ⟨?_, hearly.closure, hearly.source_eq.trans hspans.inside.source_eq.symm,
        hspans.stop_le hearly.stops⟩
      obtain ⟨r, hr, -⟩ := hearly.starts
      rcases hlead with hlead | hlead
      · rw [hr] at hlead
        cases hlead
      · exact hlead.trans hhead

theorem node (h : Held source o (.ofShape shape) s)
    (hlead : o.pendingAsync = none ∨ shape.leading? = shape.toList.head?) :
    Held source o (.node ⟨s.nextId, s.rangeFrom o.current.range, none, shape⟩) s.identified := by
  obtain ⟨taken, hahead, hlast, hplaced, hspans⟩ := h.spans rfl
  have hordered : Ordered source taken := (hahead ▸ h.ordered).left
  refine ⟨h.ordered, h.idle, taken, hahead, hlast, fun _ => hplaced.begun rfl, List.forall_mem_nil _, ?_, ?_, ?_⟩
  · exact List.forall_mem_singleton.mpr (fits hspans hplaced hlead _)
  · exact List.forall_mem_singleton.mpr (.inl hspans.inside)
  · exact .singleton (hspans.start_le_stop hordered)

/-- A closure whose `async` was taken before starts there. -/
theorem early {lexed : Lexed} {signature body : Node} (hpending : o.pendingAsync = some lexed.token.range)
    (hordered : Ordered source (lexed :: o.ahead))
    (h : Held source { o with pendingAsync := none } (.ofShape (.closure true signature body)) s) :
    Held source o (.node ⟨s.nextId, s.rangeFrom lexed.token.range, none, .closure true signature body⟩)
      s.identified := by
  obtain ⟨taken, hahead, hlast, hplaced⟩ := h.placed
  have hne : taken ≠ [] := hplaced.begun rfl
  obtain ⟨last, hlasts⟩ := Option.isSome_iff_exists.mp (List.getLast?_isSome.mpr hne)
  have htaken : Ordered source (lexed :: taken) := by
    refine hordered.sublist (List.Sublist.cons_cons lexed ?_)
    rw [show o.ahead = taken ++ s.ahead from hahead]
    exact List.sublist_append_left taken s.ahead
  have hspans : Spans source (lexed :: taken) (s.rangeFrom lexed.token.range) := by
    have hlasts' : (lexed :: taken).getLast? = some last := by
      rw [List.getLast?_cons, hlasts]
      rfl
    rw [hlasts] at hlast
    exact rangeFrom_spans htaken hlasts' hlast
  have hfits := fits hspans (hplaced.mono (List.subset_cons_self lexed taken)) (.inl rfl) s.nextId
  refine ⟨hordered.sublist (List.sublist_cons_self _ _), h.idle, taken, hahead, hlast, fun _ => hne,
    List.forall_mem_nil _, List.forall_mem_singleton.mpr hfits, List.forall_mem_singleton.mpr (.inr ⟨rfl, ?_⟩),
    .singleton (hspans.start_le_stop htaken)⟩
  obtain ⟨t, ht, hstart⟩ := hspans.inside.starts
  refine ⟨rfl, hspans.inside.source_eq, ⟨_, hpending, Nat.le_trans (htaken.first_le ht) hstart⟩, ?_⟩
  -- The closure ends with the last of the tokens, which is not the `async`.
  obtain ⟨t, ht, hstop⟩ := hspans.inside.stops
  obtain ⟨before, hbefore⟩ := List.getLast?_eq_some_iff.mp hlasts
  refine ⟨last, List.mem_of_getLast? hlasts, Nat.le_trans hstop ?_⟩
  rw [hbefore, ← List.cons_append] at htaken ht
  exact htaken.le_last ht

end Held

/-! ### Accounts -/

variable {α β : Type} {view : α → Hand} {view' : β → Hand}

/-- An outcome from a place where this is at hand: if it is a success, then what it gives is. -/
def Leaves (source : Nat) (o : State) (hand : Hand) (view : α → Hand) (s : State) (outcome : Outcome α) : Prop :=
  Held source o hand s → ∀ a t, outcome = .ok a t → Held source o (view a) t

/-- A parser that reads what it gives, wherever it starts without an `async` taken before. -/
def Settles (source : Nat) (view : α → Hand) (p : Parser α) : Prop :=
  ∀ s, s.pendingAsync = none → Leaves source s .empty view s (p s)

/-- A place without an `async` taken before, or at a function that it belongs to. -/
def Ready (source : Nat) (s : State) : Prop :=
  s.pendingAsync = none ∨ ∃ lexed, s.pendingAsync = some lexed.token.range ∧
    Ordered source (lexed :: s.ahead) ∧ s.kind = .kwFunc

/-- A parser of expressions, which may start with an asynchronous closure. -/
def Leads (source : Nat) (p : Parser Node) : Prop :=
  ∀ s, Ordered source s.ahead → Ready source s → ∀ n t, p s = .ok n t → Held source s (.node n) t

namespace Leaves

theorem fail {e : ParseError} : Leaves source o hand view s (.error e t) := by
  intro _ a t h
  cases h

theorem pure {a : α} (hc : hand.Covers (view a)) : Leaves source o hand view s ((pure a : Parser α) s) := by
  rintro hheld b t ⟨⟩
  exact hheld.covers hc

theorem bind {p : Parser α} {g : α → Parser β} (hp : Leaves source o hand view s (p s))
    (hg : ∀ a t, Leaves source o (view a) view' t (g a t)) : Leaves source o hand view' s ((p >>= g) s) := by
  intro hheld b u hok
  obtain ⟨a, t, hrun, hrest⟩ := bind_eq_ok.mp hok
  exact hg a t (hp hheld a t hrun) b u hrest

theorem weaken {outcome : Outcome α} (h : Leaves source o other view s outcome) (hc : hand.Covers other) :
    Leaves source o hand view s outcome := fun hheld => h (hheld.covers hc)

theorem covers {view' : α → Hand} {outcome : Outcome α} (h : Leaves source o hand view s outcome)
    (hc : ∀ a, (view a).Covers (view' a)) : Leaves source o hand view' s outcome :=
  fun hheld a t hok => (h hheld a t hok).covers (hc a)

theorem ite {c : Prop} [Decidable c] {p q : Parser α} (hp : c → Leaves source o hand view s (p s))
    (hq : ¬c → Leaves source o hand view s (q s)) : Leaves source o hand view s ((if c then p else q) s) := by
  split
  · exact hp ‹_›
  · exact hq ‹_›

end Leaves

/-- What is read from a place on is added to what is at hand there. -/
theorem Leaves.onto {outcome : Outcome α} (h : s.pendingAsync = none → Leaves source s .empty view s outcome) :
    Leaves source o hand (fun a => hand ++ view a) s outcome := by
  intro hheld a t hok
  exact hheld.append (h hheld.idle (.refl hheld.ordered_here hheld.idle) a t hok)

namespace Settles

theorem leaves {p : Parser α} (h : Settles source view p) :
    Leaves source o hand (fun a => hand ++ view a) s (p s) := .onto (h s)

theorem nested {p : Parser α} (h : Settles source view p) : Settles source view (nested p) := by
  intro s hs hheld a t hok
  obtain ⟨u, hrun, rfl⟩ := nested_eq_ok.mp hok
  obtain ⟨hordered, hidle, hplaced⟩ := h { s with depth := s.depth + 1 } hs
    (.refl hheld.ordered hs) a u hrun
  exact ⟨hordered, hidle, hplaced⟩

theorem tooDeep : Settles source view (tooDeep : Parser α) := fun _ _ => .fail

end Settles

namespace Leads

theorem settles {p : Parser Node} (h : Leads source p) : Settles source Hand.node p :=
  fun s hs hheld => h s hheld.ordered (.inl hs)

theorem nested {p : Parser Node} (h : Leads source p) : Leads source (nested p) := by
  intro s hordered hready n t hok
  obtain ⟨u, hrun, rfl⟩ := nested_eq_ok.mp hok
  obtain ⟨hordered, hidle, hplaced⟩ := h { s with depth := s.depth + 1 } hordered hready n u hrun
  exact ⟨hordered, hidle, hplaced⟩

theorem tooDeep : Leads source tooDeep := fun _ _ _ _ _ hok => (tooDeep_eq_ok.mp hok).elim

/-- What is put behind an expression. -/
theorem follow {p : Parser Node} {g : Node → Parser α} (hp : Leads source p) (hordered : Ordered source s.ahead)
    (hready : Ready source s) (hg : ∀ n t, Leaves source s (.node n) view t (g n t)) {a : α}
    (hok : (p >>= g) s = .ok a u) : Held source s (view a) u := by
  obtain ⟨n, t, hrun, hrest⟩ := bind_eq_ok.mp hok
  exact hg n t (hp s hordered hready n t hrun) a u hrest

end Leads

namespace Leaves

theorem partFrom {p : Parser Node} {g : Node → Parser α}
    (hp : s.pendingAsync = none → Leaves source s .empty Hand.node s (p s))
    (hg : ∀ n t, Leaves source o (hand.withNode n) view t (g n t)) : Leaves source o hand view s ((p >>= g) s) :=
  bind (onto hp) fun n t hheld =>
    hg n t (hheld.covers ⟨fun _ => Bool.or_true _, (List.append_nil _).symm, rfl⟩)

theorem part {p : Parser Node} {g : Node → Parser α} (hp : Settles source Hand.node p)
    (hg : ∀ n t, Leaves source o (hand.withNode n) view t (g n t)) : Leaves source o hand view s ((p >>= g) s) :=
  partFrom (hp s) hg

theorem skip {p : Parser α} {g : α → Parser β} (hp : Settles source (fun _ => .empty) p)
    (hg : ∀ a t, Leaves source o hand view' t (g a t)) : Leaves source o hand view' s ((p >>= g) s) :=
  bind hp.leaves fun a t hheld =>
    hg a t (hheld.covers
      ⟨fun h => (Bool.or_false _).trans h, (List.append_nil _).symm, (List.append_nil _).symm⟩)

/-- A parser of which only is known that it takes a token. -/
theorem taking {p : Parser α} {g : α → Parser β} (hp : Settles source (fun _ => Hand.empty.begin) p)
    (hg : ∀ a t, Leaves source o hand.begin view' t (g a t)) : Leaves source o hand view' s ((p >>= g) s) :=
  bind hp.leaves fun a t hheld =>
    hg a t (hheld.covers ⟨fun _ => Bool.or_true _, (List.append_nil _).symm, (List.append_nil _).symm⟩)

theorem parts {f : α → List Node} {p : Parser α} {g : α → Parser β}
    (hp : Settles source (fun a => .nodes (f a)) p)
    (hg : ∀ a t, Leaves source o (hand.withNodes (f a)) view' t (g a t)) :
    Leaves source o hand view' s ((p >>= g) s) :=
  bind hp.leaves fun a t hheld =>
    hg a t (hheld.covers ⟨fun h => (Bool.or_false _).trans h, (List.append_nil _).symm, rfl⟩)

theorem idents {f : α → List Ident} {p : Parser α} {g : α → Parser β}
    (hp : Settles source (fun a => .idents (f a)) p)
    (hg : ∀ a t, Leaves source o (hand.withIdents (f a)) view' t (g a t)) :
    Leaves source o hand view' s ((p >>= g) s) :=
  bind hp.leaves fun a t hheld =>
    hg a t (hheld.covers ⟨fun h => (Bool.or_false _).trans h, rfl, (List.append_nil _).symm⟩)

/-! ### The actions -/

theorem here {g : Range → Parser α} (hg : Leaves source o hand view s (g s.current.range s)) :
    Leaves source o hand view s ((Grammar.here >>= g) s) := hg

theorem kind {g : Kind → Parser α} (hg : ∀ k, s.kind = k → Leaves source o hand view s (g k s)) :
    Leaves source o hand view s ((Grammar.kind >>= g) s) := hg s.kind rfl

theorem get {g : State → Parser α} (hg : Leaves source o hand view s (g s s)) :
    Leaves source o hand view s (((MonadState.get : Parser State) >>= g) s) := hg

theorem check {k : Kind} {g : Bool → Parser α}
    (hg : ∀ b, (b = true ↔ s.kind = k) → Leaves source o hand view s (g b s)) :
    Leaves source o hand view s ((Grammar.check k >>= g) s) := hg (s.kind == k) beq_iff_eq

theorem look {p : Parser β} {g : β → Parser α} (hp : Looks p) (hg : ∀ b, Leaves source o hand view s (g b s)) :
    Leaves source o hand view s ((p >>= g) s) := by
  obtain ⟨b, hrun⟩ := hp s
  rw [bind_of_ok hrun]
  exact hg b

theorem advance {g : Token → Parser α} (hk : s.kind ≠ .eof)
    (hg : Leaves source o hand.begin view s.advance (g s.current s.advance)) :
    Leaves source o hand view s ((Grammar.advance >>= g) s) := by
  intro hheld
  exact hg (hheld.mark hk)

theorem eat {k : Kind} {g : Bool → Parser α} (hk : (k == .eof) = false)
    (hyes : ∀ t, Leaves source o hand.begin view t (g true t))
    (hno : s.kind ≠ k → Leaves source o hand view s (g false s)) :
    Leaves source o hand view s ((Grammar.eat k >>= g) s) := by
  intro hheld a t hok
  rw [eat_bind] at hok
  split at hok
  · rename_i hs
    exact hyes s.advance (hheld.mark (hs ▸ ne_of_beq_false hk)) a t hok
  · exact hno ‹_› hheld a t hok

/-- The token may be there or not. -/
theorem option {k : Kind} {g : Bool → Parser α} (hk : (k == .eof) = false)
    (hg : ∀ b t, Leaves source o hand view t (g b t)) :
    Leaves source o hand view s ((Grammar.eat k >>= g) s) :=
  eat hk (fun t => (hg true t).weaken ⟨fun _ => rfl, rfl, rfl⟩) fun _ => hg false s

theorem expect {k : Kind} {g : Token → Parser α} (hk : (k == .eof) = false)
    (hg : ∀ token t, Leaves source o hand.begin view t (g token t)) :
    Leaves source o hand view s ((Grammar.expect k >>= g) s) := by
  intro hheld a u hok
  obtain ⟨token, t, hrun, hrest⟩ := bind_eq_ok.mp hok
  obtain ⟨hs, -, rfl⟩ := expect_eq_ok.mp hrun
  exact hg token _ (hheld.mark (hs ▸ ne_of_beq_false hk)) a u hrest

theorem expectName {g : Ident → Parser α}
    (hg : ∀ name t, Leaves source o (hand.withIdent name) view t (g name t)) :
    Leaves source o hand view s ((Grammar.expectName >>= g) s) := by
  intro hheld a u hok
  obtain ⟨name, t, hrun, hrest⟩ := bind_eq_ok.mp hok
  obtain ⟨hk, rfl, rfl⟩ := expectName_eq_ok.mp hrun
  have hname : Held source s (.ident ⟨s.current.text, s.current.range⟩) s.advance :=
    .token hheld.ordered_here hheld.idle (hk ▸ Kind.noConfusion) (List.forall_mem_singleton.mpr rfl) rfl
  exact hg _ _ ((hheld.append hname).covers ⟨fun _ => Bool.or_true _, rfl, (List.append_nil _).symm⟩) a u hrest

theorem finish {start : Range} {g : Range → Parser α}
    (hg : Leaves source o hand view s (g (s.rangeFrom start) s)) :
    Leaves source o hand view s ((Grammar.finish start >>= g) s) := by
  rw [finish_bind]
  exact hg

theorem unexpected {what : Expectation} : Leaves source o hand view s (Grammar.unexpected what s) := fail

theorem node (hlead : o.pendingAsync = none ∨ shape.leading? = shape.toList.head?)
    (hhand : hand.Covers (.ofShape shape)) (hrange : range = s.rangeFrom o.current.range) :
    Leaves source o hand Hand.node s (Grammar.node shape range s) := by
  intro hheld n t hok
  obtain ⟨rfl, rfl⟩ := node_eq_ok.mp hok
  rw [hrange]
  exact (hheld.covers hhand).node hlead

/-- Everything that a construct holds is at hand, and becomes a node. -/
theorem close {start : Range} (hstart : start = o.current.range)
    (hlead : o.pendingAsync = none ∨ shape.leading? = shape.toList.head?)
    (hhand : hand.Covers (.ofShape shape)) : Leaves source o hand Hand.node s (Grammar.close start shape s) := by
  subst hstart
  intro hheld n t hok
  rw [Grammar.close, finish_bind] at hok
  exact node hlead hhand rfl hheld n t hok

/-! ### Combinations -/

theorem withStructLiterals {allowed : Bool} {p : Parser α} (h : ∀ s, Leaves source o hand view s (p s)) :
    Leaves source o hand view s (Grammar.withStructLiterals allowed p s) := by
  intro hheld a t hok
  obtain ⟨u, hrun, rfl⟩ := withStructLiterals_eq_ok.mp hok
  obtain ⟨hordered, hidle, hplaced⟩ := h { s with structLiterals := allowed }
    ⟨hheld.ordered, hheld.idle, hheld.placed⟩ a u hrun
  exact ⟨hordered, hidle, hplaced⟩

theorem repeating {step : α → Parser (ForInStep α)} {a : α} (ha : hand.Covers (view a))
    (h : ∀ a t, Leaves source o (view a) (fun r => view r.value) t (step a t)) :
    Leaves source o hand view s (Grammar.repeating a step s) := by
  intro hheld b t hok
  exact repeating_invariant (I := fun a s => Held source o (view a) s)
    (fun a s r t ha hrun => h a s ha r t hrun) (hheld.covers ha) hok

end Leaves

/-! ### Tokens, lists and optional parts -/

theorem State.rangeFrom_advance (s : State) : s.advance.rangeFrom s.current.range = s.current.range := by
  show (if _ then s.current.range.merge s.current.range else s.current.range) = s.current.range
  simp [Range.merge]

/-- A token becomes a node as it is. -/
theorem Leaves.leaf (hs : s.pendingAsync = none) (hk : s.kind ≠ .eof) (hidents : shape.idents = [])
    (hparts : shape.toList = []) {g : Token → Parser Node}
    (hg : g s.current = Grammar.node shape s.current.range) :
    Leaves source s .empty Hand.node s ((Grammar.advance >>= g) s) := by
  refine .advance hk ?_
  rw [hg]
  exact .node (.inl hs) ⟨fun _ => rfl, by rw [Hand.ofShape, hidents]; rfl, hparts⟩ s.rangeFrom_advance.symm

namespace Settles

theorem list {closing : Kind} {item : Parser Node} (hk : (closing == .eof) = false)
    (h : Settles source Hand.node item) : Settles source Hand.nodes (list closing item) := by
  refine fun s _ => .withStructLiterals fun t => ?_
  have hitems : Leaves source s .empty (fun items : Array Node => Hand.nodes items.toList) t
      (repeating #[] (listStep closing item) t) := by
    refine .repeating (.refl _) fun items u => .check fun _ _ => .ite (fun _ => .pure (.refl _)) fun _ => ?_
    exact .part h fun _ _ => .eat rfl (fun _ => .pure .push) fun _ => .pure .push
  exact .bind hitems fun _ _ => .expect hk fun _ _ => .pure (.forget rfl)

theorem optionalAfter {k : Kind} {item : Parser Node} (hk : (k == .eof) = false)
    (h : Settles source Hand.node item) :
    Settles source (fun found => .nodes found.toList) (optionalAfter k item) :=
  fun _ _ => .eat hk (fun _ => .part h fun _ _ => .pure (.forget rfl)) fun _ => .pure (.refl _)

end Settles

/-- What the rules one level deeper read. -/
structure Rules.Settle (r : Rules) (source : Nat) : Prop where
  expression : Leads source r.expression
  type : Settles source Hand.node r.type
  statement : Settles source Hand.node r.statement
  block : Settles source Hand.node r.block
  structMember : Settles source Hand.node r.structMember
  operand (limit : Nat) : Settles source Hand.node (r.operand limit)
  unary : Settles source Hand.node r.unary
  elseIf : Settles source Hand.node r.elseIf
  /-- Also a statement that fails moves on. -/
  moves : ∀ depth, Agrees depth r.statement r.statement

theorem Rules.Settle.value {r : Rules} (h : r.Settle source) : Settles source Hand.node r.expression :=
  h.expression.settles

end Grammar

end BraceLang
