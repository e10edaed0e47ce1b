import BraceLang.Proofs.Grammar.Spans
import BraceLang.Proofs.Grammar.Yields
import BraceLang.Proofs.Node.Layers

/-! What parsers do. Every change that a parser makes to its place is one of a few (`Effect`), and all that
    it names lies in the area that its tokens lie in: the ranges of nodes, names and errors are ranges of
    tokens, or merged from them (`Area`). A parser that makes no other change and names nothing else
    upholds the area (`Upholds`), and the combinators put such parsers together.

    What is read is sound (`Node.Sound`): it lies in the area, and each of its operands belongs to the
    layer that the operator leaves to it. -/

namespace BraceLang

/-! ### Areas -/

/-- A set of ranges that holds what two of them merge to. -/
structure Area where
  Covers : Range → Prop
  merge : ∀ {a b : Range}, Covers a → Covers b → Covers (a.merge b)

instance : Membership Range Area := ⟨Area.Covers⟩

/-- All ranges. -/
def Area.everywhere : Area := ⟨fun _ => True, fun _ _ => trivial⟩

variable {area : Area}

theorem Area.merge_mem {a b : Range} (ha : a ∈ area) (hb : b ∈ area) : a.merge b ∈ area :=
  area.merge ha hb

/-- All that a diagnostic marks lies in the area. -/
def Diagnostic.Within (area : Area) (d : Diagnostic) : Prop := ∀ label ∈ d.labels, label.range ∈ area

/-- A token and what is wrong with it lie in the area. -/
structure Lexed.Within (area : Area) (lexed : Lexed) : Prop where
  token : lexed.token.range ∈ area
  errors : ∀ e ∈ lexed.errors, e.range ∈ area

namespace Diagnostic

@[simp] theorem labels_withHelp? (d : Diagnostic) (help : Option String) :
    (d.withHelp? help).labels = d.labels := by
  cases help <;> rfl

@[simp] theorem code_withHelp? (d : Diagnostic) (help : Option String) :
    (d.withHelp? help).code = d.code := by
  cases help <;> rfl

@[simp] theorem severity_withHelp? (d : Diagnostic) (help : Option String) :
    (d.withHelp? help).severity = d.severity := by
  cases help <;> rfl

end Diagnostic

/-- A lexical error is marked where it is, and nowhere else. -/
theorem LexError.within_toDiagnostic {e : LexError} (h : e.range ∈ area) : e.toDiagnostic.Within area := by
  rw [Diagnostic.Within, toDiagnostic, Diagnostic.labels_withHelp?]
  exact List.forall_mem_singleton.mpr h

theorem ParseError.within_toDiagnostic {e : ParseError} (h : e.range ∈ area) :
    e.toDiagnostic.Within area := by
  rw [Diagnostic.Within, toDiagnostic, Diagnostic.labels_withHelp?]
  exact List.forall_mem_singleton.mpr h

/-! ### Sound nodes -/

/-- A node and its names lie in the area. -/
structure Node.Located (area : Area) (n : Node) : Prop where
  range : n.range ∈ area
  names : ∀ name ∈ n.shape.idents, name.range ∈ area

/-- A node lies in the area, and each operand is of the layer it is left to. -/
structure Node.Regular (area : Area) (n : Node) : Prop extends Located area n where
  operands : ∀ operand ∈ n.shape.operands, operand.1.admits operand.2.shape = true

/-- A node and all nodes below it are regular. -/
def Node.Sound (area : Area) (n : Node) : Prop := n.Throughout (Regular area)

theorem Node.Sound.located {n : Node} (h : n.Sound area) : n.Throughout (Located area) :=
  h.imp fun _ regular => regular.toLocated

/-- The nodes are sound. -/
def AllSound (area : Area) (ns : List Node) : Prop := ∀ n ∈ ns, n.Sound area

namespace AllSound
variable {n : Node} {ns ms : List Node}

theorem nil : AllSound area [] := List.forall_mem_nil _

theorem cons (hn : n.Sound area) (hns : AllSound area ns) : AllSound area (n :: ns) :=
  List.forall_mem_cons.mpr ⟨hn, hns⟩

theorem one (hn : n.Sound area) : AllSound area [n] := List.forall_mem_singleton.mpr hn

theorem append (hns : AllSound area ns) (hms : AllSound area ms) : AllSound area (ns ++ ms) :=
  List.forall_mem_append.mpr ⟨hns, hms⟩

theorem push {items : Array Node} (h : AllSound area items.toList) (hn : n.Sound area) :
    AllSound area (items.push n).toList := by
  rw [Array.toList_push]
  exact h.append (one hn)

end AllSound

/-- The construct makes a sound node of any range in the area. -/
structure Shape.Sound (area : Area) (shape : Shape Node) : Prop where
  names : ∀ name ∈ shape.idents, name.range ∈ area
  operands : ∀ operand ∈ shape.operands, operand.1.admits operand.2.shape = true
  parts : AllSound area shape.toList

namespace Shape.Sound
variable {shape : Shape Node} {name : Ident} {layer : Layer} {x : Node}

/-- A construct without names and operands. -/
theorem plain (hnames : shape.idents = []) (hoperands : shape.operands = [])
    (parts : AllSound area shape.toList) : shape.Sound area := by
  refine ⟨?_, ?_, parts⟩
  · rw [hnames]
    exact List.forall_mem_nil _
  · rw [hoperands]
    exact List.forall_mem_nil _

/-- A construct with one name. -/
theorem named (hnames : shape.idents = [name]) (hname : name.range ∈ area) (hoperands : shape.operands = [])
    (parts : AllSound area shape.toList) : shape.Sound area := by
  refine ⟨?_, ?_, parts⟩
  · rw [hnames]
    exact List.forall_mem_singleton.mpr hname
  · rw [hoperands]
    exact List.forall_mem_nil _

/-- A construct with one operand. -/
theorem behind (hnames : shape.idents = []) (hoperands : shape.operands = [(layer, x)])
    (hx : layer.admits x.shape = true) (parts : AllSound area shape.toList) : shape.Sound area := by
  refine ⟨?_, ?_, parts⟩
  · rw [hnames]
    exact List.forall_mem_nil _
  · rw [hoperands]
    exact List.forall_mem_singleton.mpr hx

theorem node (h : shape.Sound area) {id : NodeId} {range : Range} (hrange : range ∈ area) :
    Node.Sound area ⟨id, range, none, shape⟩ :=
  .mk ⟨⟨hrange, h.names⟩, h.operands⟩ h.parts

end Shape.Sound

namespace Grammar

variable {α β : Type} {s t u : State}

/-! ### Places -/

/-- All that a parser sees and has reported lies in the area. -/
structure State.Within (area : Area) (s : State) : Prop where
  ahead : ∀ lexed ∈ s.ahead, lexed.Within area
  eof : s.eof.Within area
  last : ∀ r ∈ s.lastRange, r ∈ area
  pending : ∀ r ∈ s.pendingAsync, r ∈ area
  log : ∀ d ∈ s.log.toList, d.Within area

theorem lexicalReports_within {lexed : Lexed} (h : lexed.Within area) :
    ∀ d ∈ lexicalReports lexed, d.Within area := by
  intro d hd
  obtain ⟨e, he, rfl⟩ := List.mem_map.mp hd
  exact LexError.within_toDiagnostic (h.errors e he)

theorem State.within_everywhere (s : State) : s.Within Area.everywhere :=
  have lexed (l : Lexed) : l.Within Area.everywhere := ⟨trivial, fun _ _ => trivial⟩
  ⟨fun l _ => lexed l, lexed _, fun _ _ => trivial, fun _ _ => trivial, fun _ _ _ _ => trivial⟩

namespace State.Within

theorem seen (h : s.Within area) {lexed : Lexed} (hl : lexed ∈ s.eof :: s.ahead) : lexed.Within area := by
  rcases List.mem_cons.mp hl with rfl | hl
  · exact h.eof
  · exact h.ahead lexed hl

theorem current (h : s.Within area) : s.current.range ∈ area := by
  unfold State.current
  split
  · rename_i lexed rest hahead
    exact (h.ahead lexed (hahead ▸ List.mem_cons_self)).token
  · exact h.eof.token

theorem rangeFrom (h : s.Within area) {start : Range} (hstart : start ∈ area) : s.rangeFrom start ∈ area := by
  unfold State.rangeFrom
  split
  · rename_i last hlast
    split
    · exact Area.merge_mem hstart (h.last last hlast)
    · exact hstart
  · exact hstart

theorem advance (h : s.Within area) : s.advance.Within area where
  ahead lexed hl := h.ahead lexed (List.mem_of_mem_tail hl)
  eof := h.eof
  last := by
    rintro r ⟨⟩
    exact h.current
  pending := h.pending
  log d hd := by
    rw [State.advance, Log.toList_append, List.mem_append, List.mem_flatMap] at hd
    rcases hd with hd | ⟨lexed, hlexed, hd⟩
    · exact h.log d hd
    · exact lexicalReports_within (h.seen (mem_of_upcoming? (Option.mem_toList.mp hlexed))) d hd

/-- The start of a stream whose tokens lie in the area. -/
theorem start {stream : TokenStream} (h : ∀ lexed ∈ stream.eof :: stream.tokens, lexed.Within area) :
    (State.start stream).Within area where
  ahead lexed hl := h lexed (List.mem_cons_of_mem _ hl)
  eof := h _ List.mem_cons_self
  last _ hr := by cases hr
  pending _ hr := by cases hr
  log d hd := by
    rw [State.start, Log.toList_append, Log.toList_empty, List.nil_append, List.mem_flatMap] at hd
    obtain ⟨lexed, hlexed, hd⟩ := hd
    obtain ⟨n, -, hn⟩ := List.mem_filterMap.mp hlexed
    exact lexicalReports_within (h lexed (mem_of_upcoming? hn)) d hd

end State.Within

/-! ### Effects -/

/-- A change that a parser makes to its place. -/
inductive Effect where
  /-- Takes the nearest token. -/
  | take
  /-- Gives out an identity. -/
  | identify
  | report (e : ParseError)
  /-- Allows or forbids struct literals. -/
  | allow (structLiterals : Bool)
  /-- Enters or leaves a level of nesting. -/
  | nest (depth : Nat)
  /-- Keeps an `async` for later, or lets go of it. -/
  | hold (async : Option Range)

/-- The place after an effect. -/
def Effect.on (s : State) : Effect → State
  | take => s.advance
  | identify => s.identified
  | report e => { s with log := s.log.push e.toDiagnostic }
  | allow structLiterals => { s with structLiterals }
  | nest depth => { s with depth }
  | hold async => { s with pendingAsync := async }

/-- Whether the effect takes a token. -/
def Effect.isTake : Effect → Bool
  | take => true
  | _ => false

/-- What the effect names lies in the area. -/
def Effect.Within (area : Area) : Effect → Prop
  | report e => e.range ∈ area
  | hold async => ∀ r ∈ async, r ∈ area
  | _ => True

/-- The place after some effects. -/
def State.undergo (s : State) (effects : List Effect) : State := effects.foldl Effect.on s

theorem State.undergo_append (s : State) (es fs : List Effect) :
    s.undergo (es ++ fs) = (s.undergo es).undergo fs := List.foldl_append

theorem State.Within.effect (h : s.Within area) {e : Effect} (he : e.Within area) :
    (e.on s).Within area := by
  cases e with
  | take => exact h.advance
  | report e =>
    refine ⟨h.ahead, h.eof, h.last, h.pending, ?_⟩
    rw [Effect.on, Log.toList_push]
    exact List.forall_mem_append.mpr
      ⟨h.log, List.forall_mem_singleton.mpr (ParseError.within_toDiagnostic he)⟩
  | identify | allow | nest => exact ⟨h.ahead, h.eof, h.last, h.pending, h.log⟩
  | hold async => exact ⟨h.ahead, h.eof, h.last, he, h.log⟩

/-- The second place comes from the first by effects that name nothing outside the area. -/
def Goes (area : Area) (s t : State) : Prop := ∃ es : List Effect, (∀ e ∈ es, e.Within area) ∧ s.undergo es = t

namespace Goes

theorem refl (s : State) : Goes area s s := ⟨[], List.forall_mem_nil _, rfl⟩

theorem trans (h : Goes area s t) (h' : Goes area t u) : Goes area s u := by
  obtain ⟨es, hes, rfl⟩ := h
  obtain ⟨fs, hfs, rfl⟩ := h'
  exact ⟨es ++ fs, List.forall_mem_append.mpr ⟨hes, hfs⟩, s.undergo_append es fs⟩

theorem one {e : Effect} (he : e.Within area) : Goes area s (e.on s) :=
  ⟨[e], List.forall_mem_singleton.mpr he, rfl⟩

theorem within (h : Goes area s t) (hs : s.Within area) : t.Within area := by
  obtain ⟨es, hes, rfl⟩ := h
  induction es generalizing s with
  | nil => exact hs
  | cons e es ih =>
    obtain ⟨he, hes⟩ := List.forall_mem_cons.mp hes
    exact ih (hs.effect he) hes

end Goes

/-! ### Outcomes -/

/-- The outcome of a parser that started at `s`: it is in the area, and a success is as the condition
    says. -/
def Outcome.Fair (area : Area) (P : α → State → Prop) (s : State) : Outcome α → Prop
  | .ok a t => Goes area s t ∧ P a t
  | .error e t => Goes area s t ∧ e.range ∈ area

namespace Outcome.Fair
variable {P : α → State → Prop} {Q : β → State → Prop}

theorem ok {outcome : Outcome α} {a : α} (h : Fair area P s outcome) (hok : outcome = .ok a t) :
    Goes area s t ∧ P a t := by
  rw [hok] at h
  exact h

theorem after {outcome : Outcome α} (hst : Goes area s t) (h : Fair area P t outcome) :
    Fair area P s outcome := by
  cases outcome with
  | ok a u => exact ⟨hst.trans h.1, h.2⟩
  | error e u => exact ⟨hst.trans h.1, h.2⟩

theorem mono {outcome : Outcome α} {P' : α → State → Prop} (h : Fair area P s outcome)
    (hP : ∀ a t, P a t → P' a t) : Fair area P' s outcome := by
  cases outcome with
  | ok a t => exact ⟨h.1, hP a t h.2⟩
  | error e t => exact h

theorem bind {p : Parser α} {f : α → Parser β} (hs : s.Within area) (hp : Fair area P s (p s))
    (hf : ∀ a t, t.Within area → P a t → Fair area Q t (f a t)) : Fair area Q s ((p >>= f) s) := by
  cases hrun : p s with
  | ok a t =>
    obtain ⟨hgoes, ha⟩ := hp.ok hrun
    rw [bind_of_ok hrun]
    exact after hgoes (hf a t (hgoes.within hs) ha)
  | error e t =>
    rw [hrun] at hp
    rw [bind_of_error hrun]
    exact hp

/-- What one step of a loop keeps, the loop keeps. -/
theorem repeating {a : α} {step : α → Parser (ForInStep α)} (hs : s.Within area) (ha : P a s)
    (h : ∀ a s, s.Within area → P a s → Fair area (fun r t => P r.value t) s (step a s)) :
    Fair area P s (repeating a step s) := by
  show Fair area P s (repeatFrom step a s)
  fun_induction repeatFrom step a s with
  | case1 a s b t hstep => exact (h a s hs ha).ok hstep
  | case2 a s b t hstep _ ih =>
    obtain ⟨hgoes, hb⟩ := (h a s hs ha).ok hstep
    exact after hgoes (ih (hgoes.within hs) hb)
  | case3 a s b t hstep _ => exact (h a s hs ha).ok hstep
  | case4 a s e t hstep =>
    have hfair := h a s hs ha
    rw [hstep] at hfair
    exact hfair

end Outcome.Fair

/-! ### Parsers -/

/-- Wherever the parser starts in the area, it stays in it, and what it gives is as the condition
    says. -/
def Upholds (area : Area) (P : α → Prop) (p : Parser α) : Prop :=
  ∀ s, s.Within area → Outcome.Fair area (fun a _ => P a) s (p s)

/-- The parser gives sound nodes of the layer. -/
def Supplies (area : Area) (layer : Layer) (p : Parser Node) : Prop :=
  Upholds area (fun n => n.Sound area ∧ layer.admits n.shape = true) p

/-- The parser gives sound constructs of the layer. -/
def SuppliesShape (area : Area) (layer : Layer) (p : Parser (Shape Node)) : Prop :=
  Upholds area (fun shape => shape.Sound area ∧ layer.admits shape = true) p

/-- A parser that runs between two effects, the second of which may depend on where it stops. -/
theorem Outcome.Fair.around {P : α → Prop} {p : Parser α} (hs : s.Within area) (enter : Effect)
    (leave : State → Effect) (henter : enter.Within area) (hleave : ∀ t, (leave t).Within area)
    (h : Upholds area P p) :
    Outcome.Fair area (fun a _ => P a) s
      (match p (enter.on s) with
        | .ok a t => .ok a ((leave t).on t)
        | .error e t => .error e ((leave t).on t)) := by
  have inside := h _ (hs.effect henter)
  cases hrun : p (enter.on s) with
  | ok a t =>
    rw [hrun] at inside
    exact ⟨((Goes.one henter).trans inside.1).trans (.one (hleave t)), inside.2⟩
  | error e t =>
    rw [hrun] at inside
    exact ⟨((Goes.one henter).trans inside.1).trans (.one (hleave t)), inside.2⟩

namespace Upholds
variable {P Q : α → Prop} {R : β → Prop}

/-- A parser does nothing but its effects, whatever comes of it. -/
theorem effects {p : Parser α} (h : Upholds Area.everywhere P p) (s : State) :
    ∃ es, Outcome.stop (p s) = s.undergo es := by
  have hfair := h s s.within_everywhere
  cases hrun : p s with
  | ok a t =>
    obtain ⟨⟨es, -, hes⟩, -⟩ := hfair.ok hrun
    exact ⟨es, hes.symm⟩
  | error e t =>
    rw [hrun] at hfair
    obtain ⟨⟨es, -, hes⟩, -⟩ := hfair
    exact ⟨es, hes.symm⟩

theorem pure {a : α} (h : P a) : Upholds area P (Pure.pure a) := fun s _ => ⟨.refl s, h⟩

theorem bind {p : Parser α} {f : α → Parser β} (hp : Upholds area P p)
    (hf : ∀ a, P a → Upholds area R (f a)) : Upholds area R (p >>= f) :=
  fun s hs => .bind hs (hp s hs) fun a t ht ha => hf a ha t ht

theorem mono {p : Parser α} (hp : Upholds area Q p) (h : ∀ a, Q a → P a) : Upholds area P p :=
  fun s hs => (hp s hs).mono fun a _ => h a

theorem ite {c : Prop} [Decidable c] {p q : Parser α} (hp : Upholds area P p) (hq : Upholds area P q) :
    Upholds area P (if c then p else q) := by
  split
  · exact hp
  · exact hq

theorem throw {e : ParseError} (h : e.range ∈ area) : Upholds area P (throw e : Parser α) :=
  fun s _ => ⟨.refl s, h⟩

theorem unexpected {what : Expectation} : Upholds area P (unexpected what : Parser α) :=
  fun s hs => ⟨.refl s, hs.current⟩

theorem tooDeep : Upholds area P (tooDeep : Parser α) := fun s hs => ⟨.refl s, hs.current⟩

/-! ### Looking at tokens -/

theorem kind {f : Kind → Parser β} (hf : ∀ k, Upholds area R (f k)) : Upholds area R (kind >>= f) :=
  fun s hs => hf s.kind s hs

theorem peek {n : Nat} {f : Kind → Parser β} (hf : ∀ k, Upholds area R (f k)) :
    Upholds area R (peek n >>= f) := fun s hs => hf (s.peek n) s hs

theorem check {k : Kind} {f : Bool → Parser β} (hf : ∀ b, Upholds area R (f b)) :
    Upholds area R (check k >>= f) := fun s hs => hf (s.kind == k) s hs

theorem get {f : State → Parser β} (hf : ∀ s, Upholds area R (f s)) : Upholds area R (get >>= f) :=
  fun s hs => hf s s hs

theorem here {f : Range → Parser β} (hf : ∀ r ∈ area, Upholds area R (f r)) :
    Upholds area R (here >>= f) := fun s hs => hf s.current.range hs.current s hs

theorem finish {start : Range} {f : Range → Parser β} (hstart : start ∈ area)
    (hf : ∀ r ∈ area, Upholds area R (f r)) : Upholds area R (finish start >>= f) := by
  intro s hs
  rw [finish_bind]
  exact hf _ (hs.rangeFrom hstart) s hs

/-! ### Taking tokens -/

theorem advance {f : Token → Parser β} (hf : ∀ token : Token, token.range ∈ area → Upholds area R (f token)) :
    Upholds area R (advance >>= f) :=
  fun s hs => .after (.one (e := .take) trivial) (hf s.current hs.current s.advance hs.advance)

theorem eat {k : Kind} {f : Bool → Parser β} (hf : ∀ b, Upholds area R (f b)) :
    Upholds area R (eat k >>= f) := by
  intro s hs
  rw [eat_bind]
  split
  · exact .after (.one (e := .take) trivial) (hf true s.advance hs.advance)
  · exact hf false s hs

theorem expect {k : Kind} {f : Token → Parser β}
    (hf : ∀ token : Token, token.range ∈ area → Upholds area R (f token)) : Upholds area R (expect k >>= f) := by
  have hexpect : Upholds area (fun token : Token => token.range ∈ area) (Grammar.expect k) :=
    .check fun _ => .ite (.advance fun _ htoken => .pure htoken) .unexpected
  exact hexpect.bind hf

theorem name {f : Ident → Parser β} (hf : ∀ name : Ident, name.range ∈ area → Upholds area R (f name)) :
    Upholds area R (expectName >>= f) := by
  have hname : Upholds area (fun name : Ident => name.range ∈ area) expectName :=
    .check fun _ => .ite (.advance fun _ htoken => .pure htoken) .unexpected
  exact hname.bind hf

/-! ### Building nodes -/

theorem node {layer : Layer} {shape : Shape Node} {range : Range} (hrange : range ∈ area)
    (hshape : shape.Sound area) (hlayer : layer.admits shape = true) :
    Supplies area layer (node shape range) :=
  fun _ _ => ⟨.one (e := .identify) trivial, hshape.node hrange, hlayer⟩

theorem close {layer : Layer} {shape : Shape Node} {start : Range} (hstart : start ∈ area)
    (hshape : shape.Sound area) (hlayer : layer.admits shape = true) :
    Supplies area layer (close start shape) :=
  .finish hstart fun _ hrange => .node hrange hshape hlayer

theorem report {e : ParseError} (he : e.range ∈ area) : Upholds area (fun _ => True) (report e) :=
  fun _ _ => ⟨.one (e := .report e) he, trivial⟩

theorem hold {async : Option Range} {f : PUnit → Parser β} (h : ∀ r ∈ async, r ∈ area)
    (hf : Upholds area R (f ⟨⟩)) :
    Upholds area R ((modify fun s => { s with pendingAsync := async } : Parser PUnit) >>= f) :=
  fun _ hs => .after (.one (e := .hold async) h) (hf _ (hs.effect (e := .hold async) h))

/-! ### Combinations -/

theorem withStructLiterals {allowed : Bool} {p : Parser α} (h : Upholds area P p) :
    Upholds area P (withStructLiterals allowed p) :=
  fun s hs => .around hs (.allow allowed) (fun _ => .allow s.structLiterals) trivial (fun _ => trivial) h

theorem nested {p : Parser α} (h : Upholds area P p) : Upholds area P (nested p) :=
  fun s hs => .around hs (.nest (s.depth + 1)) (fun t => .nest (t.depth - 1)) trivial (fun _ => trivial) h

/-- An error that is caught names a range of the area. -/
theorem attempt {p : Parser α} {f : Except ParseError α → Parser β} (h : Upholds area P p)
    (hok : ∀ a, P a → Upholds area R (f (.ok a)))
    (herror : ∀ e : ParseError, e.range ∈ area → Upholds area R (f (.error e))) :
    Upholds area R (attempt p >>= f) := by
  intro s hs
  have tried := h s hs
  cases hrun : p s with
  | ok a t =>
    rw [hrun] at tried
    rw [bind_of_ok (a := .ok a) (t := t) (by rw [Grammar.attempt, hrun])]
    exact .after tried.1 (hok a tried.2 t (tried.1.within hs))
  | error e t =>
    rw [hrun] at tried
    rw [bind_of_ok (a := .error e) (t := t) (by rw [Grammar.attempt, hrun])]
    exact .after tried.1 (herror e tried.2 t (tried.1.within hs))

theorem repeating {a : α} {step : α → Parser (ForInStep α)} (ha : P a)
    (h : ∀ a, P a → Upholds area (fun r => P r.value) (step a)) : Upholds area P (repeating a step) :=
  fun _ hs => .repeating hs ha fun a s hs ha => h a ha s hs

/-- A loop that collects sound nodes. -/
theorem collecting {items : Array Node} {step : Array Node → Parser (ForInStep (Array Node))}
    (hitems : AllSound area items.toList)
    (h : ∀ items, AllSound area items.toList → Upholds area (fun r => AllSound area r.value.toList) (step items)) :
    Upholds area (fun items => AllSound area items.toList) (Grammar.repeating items step) :=
  repeating hitems h

theorem list {layer : Layer} {closing : Kind} {item : Parser Node} (h : Supplies area layer item) :
    Upholds area (AllSound area) (list closing item) := by
  refine .withStructLiterals (.bind (.collecting .nil fun items hitems => ?_) fun items hitems => ?_)
  · refine .check fun _ => .ite (.pure hitems) (.bind h fun n hn => .eat fun _ => ?_)
    exact .ite (.pure (hitems.push hn.1)) (.pure (hitems.push hn.1))
  · exact .expect fun _ _ => .pure hitems

theorem optionalAfter {layer : Layer} {k : Kind} {item : Parser Node} (h : Supplies area layer item) :
    Upholds area (fun found => AllSound area found.toList) (optionalAfter k item) :=
  .eat fun _ => .ite (.bind h fun _ hn => .pure (.one hn.1)) (.pure .nil)

end Upholds

theorem Supplies.weaken {layer : Layer} {p : Parser Node} (h : Supplies area layer p) : Supplies area .any p :=
  Upholds.mono h fun _ hn => ⟨hn.1, rfl⟩

/-! ### What stands behind -/

/-- Whatever the parser reads, the kind of the token behind it is as the condition says. -/
def StopsBefore (Q : Kind → Prop) (p : Parser α) : Prop := ∀ ⦃s a t⦄, p s = .ok a t → Q t.kind

theorem StopsBefore.nested {Q : Kind → Prop} {p : Parser α} (h : StopsBefore Q p) : StopsBefore Q (nested p) := by
  intro s a t hok
  obtain ⟨u, hrun, rfl⟩ := nested_eq_ok.mp hok
  have hkind : Q u.kind := h hrun
  exact hkind

theorem Upholds.stopsBefore {P : α → Prop} {Q : Kind → Prop} {p : Parser α} (h : Upholds area P p)
    (hQ : StopsBefore Q p) (hs : s.Within area) : Outcome.Fair area (fun a t => P a ∧ Q t.kind) s (p s) := by
  have hfair := h s hs
  cases hrun : p s with
  | ok a t =>
    rw [hrun] at hfair
    exact ⟨hfair.1, hfair.2, hQ hrun⟩
  | error e t =>
    rw [hrun] at hfair
    exact hfair

/-- The rules stay in the area, and give sound nodes of their layers. -/
structure Rules.Conduct (area : Area) (r : Rules) : Prop where
  expression : Supplies area .any r.expression
  type : Supplies area .any r.type
  statement : Supplies area .any r.statement
  /-- A block can also stand as an operand. -/
  block : Supplies area .suffixed r.block
  structMember : Supplies area .any r.structMember
  operand (limit : Nat) : Supplies area (.binary limit) (r.operand limit)
  unary : Supplies area .prefixed r.unary
  elseIf : Supplies area .any r.elseIf
  /-- An expression takes in the branches of a conditional that it can start. -/
  expression_stops : StopsBefore (fun k => k.roles.ternary = false) r.expression
  /-- An operand takes in all operators that bind tighter than its limit. -/
  operand_stops (limit : Nat) :
    StopsBefore (fun k => k.roles.binary = true → limit ≤ k.precedence) (r.operand limit)

end Grammar

end BraceLang
