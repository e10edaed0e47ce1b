import BraceLang.Proofs.Grammar.Reads
import BraceLang.Proofs.Grammar.Yields
import BraceLang.Proofs.Node.Unplaced
import BraceLang.Proofs.Token.Closers

/-! Two parsers side by side, on the same tokens with different closers behind them. As long as the first
    takes no token of its closer and reports nothing, the second does the same, and what they give differs in
    ranges only (`Follows`). Such accounts compose along a parser.

    Whether the nearest token is of some kind is asked the same way on both sides, so only at the closers can
    the answers differ. What goes on behind a place says how much is left there before the closer (`Before`);
    where something is left, both sides see the same token. -/

namespace BraceLang

/-- Whether it can be told that a token of this kind is nearest, whatever the closer, where `m` tokens are left
    before it: the kind is not that of a closer, or something is left. -/
def Kind.told (k : Kind) : Nat → Bool
  | 0 => !k.closes
  | _ + 1 => true

theorem Kind.told_of_not_closes {k : Kind} (h : k.closes = false) (m : Nat) : k.told m = true := by
  cases m with
  | zero => rw [told, h, Bool.not_false]
  | succ m => rfl

theorem nearest_closing (k : Kind) : nearest (closing k) = k := by
  unfold closing
  split
  · exact ‹k = .eof›.symm
  · rfl

namespace Grammar

variable {α β : Type} {c d : Kind} {m n : Nat} {s t u : State} {rest : List Lexeme} {l : Lexeme}

/-! ### Places -/

/-- What the lexemes before two closers do not end in: an open brace, on which the closer would decide what it
    opens, and a `yield` that the second closer does not end. -/
structure Apart (c d : Kind) (rest : List Lexeme) : Prop where
  left : c.closes = true
  right : d.closes = true
  braces : ∀ tail, tail <:+ rest → tail.map Lexeme.kind ∉ [[.lBrace], [.lBrace, .name]]
  yields : ∀ tail, tail <:+ rest → tail.map Lexeme.kind = [.kwYield] → endsYield d = true

theorem Apart.tail (h : Apart c d (l :: rest)) : Apart c d rest where
  left := h.left
  right := h.right
  braces tail htail := h.braces tail (htail.trans (List.suffix_cons l rest))
  yields tail htail := h.yields tail (htail.trans (List.suffix_cons l rest))

/-- Two places with the same lexemes ahead up to the closers `c` and `d`. -/
structure Abreast (c d : Kind) (rest : List Lexeme) (s t : State) : Prop where
  left : s.Sees (rest ++ closing c)
  right : t.Sees (rest ++ closing d)
  nextId : s.nextId = t.nextId
  structLiterals : s.structLiterals = t.structLiterals
  pendingAsync : s.pendingAsync.isSome = t.pendingAsync.isSome
  apart : Apart c d rest

namespace Abreast

theorem remaining (h : Abreast c d rest s t) : s.remaining = rest.length + (closing c).length := by
  rw [h.left.remaining, List.length_append]

theorem remaining' (h : Abreast c d rest s t) : t.remaining = rest.length + (closing d).length := by
  rw [h.right.remaining, List.length_append]

theorem remaining_lt_iff {rest' : List Lexeme} {s' t' : State} (h : Abreast c d rest s t)
    (h' : Abreast c d rest' s' t') : t'.remaining < t.remaining ↔ s'.remaining < s.remaining := by
  rw [h.remaining, h.remaining', h'.remaining, h'.remaining', Nat.add_lt_add_iff_right, Nat.add_lt_add_iff_right]

theorem kind_last (h : Abreast c d [] s t) : s.kind = c ∧ t.kind = d :=
  ⟨h.left.kind.trans (nearest_closing c), h.right.kind.trans (nearest_closing d)⟩

theorem kind_eq (h : Abreast c d rest s t) (hrest : rest ≠ []) : t.kind = s.kind := by
  obtain ⟨l, more, rfl⟩ := List.exists_cons_of_ne_nil hrest
  exact h.right.kind.trans h.left.kind.symm

theorem ne_nil (h : Abreast c d rest s t) (hlt : (closing c).length < s.remaining) : rest ≠ [] := by
  rintro rfl
  rw [h.remaining, List.length_nil, Nat.zero_add] at hlt
  exact Nat.lt_irrefl _ hlt

theorem current (h : Abreast c d (l :: rest) s t) : Same s.current t.current := by
  have left : s.Sees (l :: (rest ++ closing c)) := h.left
  have right : t.Sees (l :: (rest ++ closing d)) := h.right
  have hlexeme : s.current.lexeme = t.current.lexeme := left.current.trans right.current.symm
  obtain ⟨hkind, hpayload⟩ := Lexeme.mk.inj hlexeme
  show Token.mk _ _ _ = Token.mk _ _ _
  rw [hkind, hpayload]

theorem advance (h : Abreast c d (l :: rest) s t) : Abreast c d rest s.advance t.advance where
  left := have left : s.Sees (l :: (rest ++ closing c)) := h.left; left.advance
  right := have right : t.Sees (l :: (rest ++ closing d)) := h.right; right.advance
  nextId := h.nextId
  structLiterals := h.structLiterals
  pendingAsync := h.pendingAsync
  apart := h.apart.tail

theorem identified (h : Abreast c d rest s t) : Abreast c d rest s.identified t.identified where
  left := h.left.identified
  right := h.right.identified
  nextId := congrArg (· + 1) h.nextId
  structLiterals := h.structLiterals
  pendingAsync := h.pendingAsync
  apart := h.apart

theorem allow {a b : Bool} (h : Abreast c d rest s t) (hab : a = b) :
    Abreast c d rest { s with structLiterals := a } { t with structLiterals := b } where
  left := ⟨h.left.lexemes, h.left.faultless, h.left.quiet⟩
  right := ⟨h.right.lexemes, h.right.faultless, h.right.quiet⟩
  nextId := h.nextId
  structLiterals := hab
  pendingAsync := h.pendingAsync
  apart := h.apart

theorem nest {m n : Nat} (h : Abreast c d rest s t) :
    Abreast c d rest { s with depth := m } { t with depth := n } where
  left := ⟨h.left.lexemes, h.left.faultless, h.left.quiet⟩
  right := ⟨h.right.lexemes, h.right.faultless, h.right.quiet⟩
  nextId := h.nextId
  structLiterals := h.structLiterals
  pendingAsync := h.pendingAsync
  apart := h.apart

/-- Where `async` is held back on both sides or on neither. -/
theorem hold {a b : Option Range} (h : Abreast c d rest s t) (hab : a.isSome = b.isSome) :
    Abreast c d rest { s with pendingAsync := a } { t with pendingAsync := b } where
  left := ⟨h.left.lexemes, h.left.faultless, h.left.quiet⟩
  right := ⟨h.right.lexemes, h.right.faultless, h.right.quiet⟩
  nextId := h.nextId
  structLiterals := h.structLiterals
  pendingAsync := hab
  apart := h.apart

end Abreast

/-- Two kinds are the same, or both are those of closers. -/
def Akin (k k' : Kind) : Prop := k = k' ∨ k.closes = true ∧ k'.closes = true

theorem Akin.refl (k : Kind) : Akin k k := .inl rfl

/-- A question that all closers answer alike. -/
theorem Akin.congr {k k' : Kind} (h : Akin k k') {f : Kind → β} {b : β}
    (hf : ∀ k : Kind, k.closes = true → f k = b) : f k = f k' := by
  rcases h with rfl | ⟨hk, hk'⟩
  · rfl
  · rw [hf k hk, hf k' hk']

theorem Akin.beq {k k' : Kind} (h : Akin k k') (other : Kind) (hother : other.closes = false) :
    (k == other) = (k' == other) := by
  have hclosers (k : Kind) (hk : k.closes = true) : (k == other) = false := by
    refine beq_false_of_ne ?_
    rintro rfl
    rw [hk] at hother
    cases hother
  exact h.congr hclosers

/-- Behind the lexemes before a closer there is the closer, and then the end. -/
theorem closes_nearest_drop {k : Kind} (hk : k.closes = true) (hn : rest.length ≤ n) :
    (nearest ((rest ++ closing k).drop n)).closes = true := by
  rw [List.drop_append, List.drop_eq_nil_of_le hn, List.nil_append]
  cases n - rest.length with
  | zero => rw [List.drop_zero, nearest_closing, hk]
  | succ i =>
    have hend : (closing k).drop (i + 1) = [] := by
      refine List.drop_eq_nil_of_le ?_
      unfold closing
      split <;> simp
    rw [hend]
    rfl

namespace Abreast

/-- A place that is followed by more than `n` tokens before the closer shows the same token there. -/
theorem peek_eq (h : Abreast c d rest s t) (hn : n < rest.length) : t.peek n = s.peek n := by
  rw [h.left.peek, h.right.peek, List.drop_append_of_le_length hn.le, List.drop_append_of_le_length hn.le]
  obtain ⟨l, more, hmore⟩ := List.exists_cons_of_ne_nil (mt List.drop_eq_nil_iff.mp (Nat.not_le.mpr hn))
  rw [hmore]
  rfl

theorem lt_of_peek {k : Kind} (h : Abreast c d rest s t) (hpeek : s.peek n = k) (hk : k.closes = false) :
    n < rest.length := by
  by_contra hn
  have hcloses := closes_nearest_drop h.apart.left (Nat.not_lt.mp hn)
  rw [← h.left.peek, hpeek, hk] at hcloses
  cases hcloses

theorem peek (h : Abreast c d rest s t) (n : Nat) : Akin (s.peek n) (t.peek n) := by
  by_cases hn : n < rest.length
  · exact .inl (h.peek_eq hn).symm
  · rw [h.left.peek, h.right.peek]
    have hn := Nat.not_lt.mp hn
    exact .inr ⟨closes_nearest_drop h.apart.left hn, closes_nearest_drop h.apart.right hn⟩

theorem ne_nil_of_kind {k : Kind} (h : Abreast c d rest s t) (hkind : s.kind = k) (hk : k.closes = false) :
    rest ≠ [] := by
  rintro rfl
  have hleft := h.apart.left
  rw [← h.kind_last.1, hkind, hk] at hleft
  cases hleft

end Abreast

theorem Abreast.kind (h : Abreast c d rest s t) : Akin s.kind t.kind := by
  cases rest with
  | cons l more => exact .inl (h.kind_eq (List.cons_ne_nil _ _)).symm
  | nil =>
    obtain ⟨hs, ht⟩ := h.kind_last
    rw [hs, ht]
    exact .inr ⟨h.apart.left, h.apart.right⟩

/-- Nothing has been reported, and `m` tokens at least stand before the closer. -/
structure Before (c : Kind) (m : Nat) (s : State) : Prop where
  quiet : s.log.toList = []
  room : (closing c).length + m ≤ s.remaining

namespace Before

theorem of_moves (h : Before c m t) (hmoves : Moves s t) : Before c m s where
  quiet := List.prefix_nil.mp (h.quiet ▸ hmoves.log)
  room := Nat.le_trans h.room hmoves.remaining_le

/-- A token that is taken stood before the closer too. -/
theorem of_takes (h : Before c m t) (hmoves : Moves s t) (hlt : t.remaining < s.remaining) :
    Before c (m + 1) s where
  quiet := (h.of_moves hmoves).quiet
  room := Nat.le_trans (Nat.succ_le_succ h.room) hlt

/-- Nothing is left of a report. -/
theorem not_reported {diagnostic : Diagnostic} (h : Before c m { s with log := s.log.push diagnostic }) :
    False := by
  have hquiet := h.quiet
  rw [Log.toList_push] at hquiet
  cases List.append_ne_nil_of_right_ne_nil _ (List.cons_ne_nil _ _) hquiet

theorem ne_nil (h : Before c (m + 1) s) (hs : Abreast c d rest s t) : rest ≠ [] :=
  hs.ne_nil (Nat.lt_of_lt_of_le (Nat.lt_add_of_pos_right m.succ_pos) h.room)

theorem beq_kind {k : Kind} (h : Before c m s) (hk : k.told m = true) (hs : Abreast c d rest s t) :
    (t.kind == k) = (s.kind == k) := by
  cases m with
  | zero =>
    have hk : k.closes = false := by simpa [Kind.told] using hk
    exact (hs.kind.beq k hk).symm
  | succ m => rw [hs.kind_eq (h.ne_nil hs)]

end Before

/-! ### Accounts -/

/-- Two outcomes from places abreast. If the first comes to a value with `m` tokens left before the closer and
    nothing reported, the second comes to the same value, and the places behind are abreast again. -/
structure Follows [Ranged α] (c d : Kind) (m : Nat) (s t : State) (o o' : Outcome α) : Prop where
  moves : ∀ a s', o = .ok a s' → Moves s s'
  leads : ∀ rest, Abreast c d rest s t → ∀ a s', o = .ok a s' → Before c m s' →
    ∃ rest' b t', o' = .ok b t' ∧ Same a b ∧ Abreast c d rest' s' t'

/-- A parser that does the same on both sides. -/
def Keeps [Ranged α] (c d : Kind) (m : Nat) (p : Parser α) : Prop := ∀ s t, Follows c d m s t (p s) (p t)

namespace Follows

variable [Ranged α] [Ranged β] {p q : Parser α} {g g' : α → Parser β}

theorem fail {err : ParseError} {o : Outcome α} : Follows c d m s t (.error err u) o := by
  constructor
  · intro a s' hrun
    cases hrun
  · intro rest hs a s' hrun
    cases hrun

theorem unexpected {what : Expectation} {o : Outcome α} :
    Follows c d m s t (Grammar.unexpected what s) o := fail

theorem pure {a b : α} (h : Same a b) :
    Follows c d m s t ((Pure.pure a : Parser α) s) ((Pure.pure b : Parser α) t) := by
  refine ⟨fun x s' hrun => ?_, fun rest hs x s' hrun _ => ?_⟩
  · obtain ⟨-, rfl⟩ := pure_eq_ok.mp hrun
    exact .refl s
  · obtain ⟨rfl, rfl⟩ := pure_eq_ok.mp hrun
    exact ⟨rest, b, t, rfl, h, hs⟩

/-- What comes first ends as far before the closer as what comes behind it tells. -/
theorem bind_at (hp : Follows c d n s t (p s) (q t))
    (hg : ∀ a b s t, Same a b → Follows c d m s t (g a s) (g' b t))
    (hearlier : ∀ a s b s', g a s = .ok b s' → Before c m s' → Before c n s) :
    Follows c d m s t ((p >>= g) s) ((q >>= g') t) := by
  refine ⟨fun b s' hrun => ?_, fun rest hs b s' hrun hbefore => ?_⟩
  · obtain ⟨a, u, hpu, hgu⟩ := bind_eq_ok.mp hrun
    exact (hp.moves a u hpu).trans ((hg a a u u (.refl a)).moves b s' hgu)
  · obtain ⟨a, u, hpu, hgu⟩ := bind_eq_ok.mp hrun
    obtain ⟨mid, a', u', hqu, ha, hu⟩ := hp.leads rest hs a u hpu (hearlier a u b s' hgu hbefore)
    rw [bind_of_ok hqu]
    exact (hg a a' u u' ha).leads mid hu b s' hgu hbefore

theorem bind (hp : Follows c d m s t (p s) (q t))
    (hg : ∀ a b s t, Same a b → Follows c d m s t (g a s) (g' b t)) :
    Follows c d m s t ((p >>= g) s) ((q >>= g') t) :=
  bind_at hp hg fun a s b s' hrun hbefore => hbefore.of_moves ((hg a a s s (.refl a)).moves b s' hrun)

/-- What is done before a parser that takes a token is not the last before the closer. -/
theorem bind_before (hp : Follows c d (m + 1) s t (p s) (q t))
    (hg : ∀ a b s t, Same a b → Follows c d m s t (g a s) (g' b t))
    (htakes : ∀ a s b s', g a s = .ok b s' → s'.remaining < s.remaining) :
    Follows c d m s t ((p >>= g) s) ((q >>= g') t) :=
  bind_at hp hg fun a s b s' hrun hbefore =>
    hbefore.of_takes ((hg a a s s (.refl a)).moves b s' hrun) (htakes a s b s' hrun)

/-- Branches on a condition that comes out alike if the first outcome is a success. -/
theorem choose {b b' : Bool} {p' q' : Parser α}
    (hb : ∀ rest a s', Abreast c d rest s t → (if b = true then p else q) s = .ok a s' → Before c m s' → b = b')
    (hp : b = true → Follows c d m s t (p s) (p' t)) (hq : b = false → Follows c d m s t (q s) (q' t)) :
    Follows c d m s t ((if b = true then p else q) s) ((if b' = true then p' else q') t) := by
  have hself : Follows c d m s t ((if b = true then p else q) s) ((if b = true then p' else q') t) := by
    cases b with
    | true => exact hp rfl
    | false => exact hq rfl
  refine ⟨hself.moves, fun rest hs a s' hrun hbefore => ?_⟩
  rw [← hb rest a s' hs hrun hbefore]
  exact hself.leads rest hs a s' hrun hbefore

theorem ite {b : Bool} {p' q' : Parser α} (hp : b = true → Follows c d m s t (p s) (p' t))
    (hq : b = false → Follows c d m s t (q s) (q' t)) :
    Follows c d m s t ((if b = true then p else q) s) ((if b = true then p' else q') t) :=
  choose (fun _ _ _ _ _ _ => rfl) hp hq

/-! ### The actions -/

theorem here {f f' : Range → Parser α} (h : Follows c d m s t (f s.current.range s) (f' t.current.range t)) :
    Follows c d m s t ((Grammar.here >>= f) s) ((Grammar.here >>= f') t) := h

theorem finish {start start' : Range} {f f' : Range → Parser α}
    (h : ∀ range range', Follows c d m s t (f range s) (f' range' t)) :
    Follows c d m s t ((Grammar.finish start >>= f) s) ((Grammar.finish start' >>= f') t) := by
  rw [finish_bind, finish_bind]
  exact h _ _

/-- A look at the nearest token, which is the same on both sides where something is left. -/
theorem kind {f f' : Kind → Parser α} (h : ∀ k, s.kind = k → Follows c d (m + 1) s t (f k s) (f' k t)) :
    Follows c d (m + 1) s t ((Grammar.kind >>= f) s) ((Grammar.kind >>= f') t) := by
  refine ⟨(h _ rfl).moves, fun rest hs a s' hrun hbefore => ?_⟩
  have hrest := (hbefore.of_moves ((h _ rfl).moves a s' hrun)).ne_nil hs
  rw [kind_bind, hs.kind_eq hrest]
  exact (h _ rfl).leads rest hs a s' hrun hbefore

/-- A look at the nearest token by a parser that takes it. -/
theorem kind_taking {f f' : Kind → Parser α}
    (htakes : ∀ a s', f s.kind s = .ok a s' → s'.remaining < s.remaining)
    (h : ∀ k, s.kind = k → Follows c d m s t (f k s) (f' k t)) :
    Follows c d m s t ((Grammar.kind >>= f) s) ((Grammar.kind >>= f') t) := by
  refine ⟨(h _ rfl).moves, fun rest hs a s' hrun hbefore => ?_⟩
  have hrest := (hbefore.of_takes ((h _ rfl).moves a s' hrun) (htakes a s' hrun)).ne_nil hs
  rw [kind_bind, hs.kind_eq hrest]
  exact (h _ rfl).leads rest hs a s' hrun hbefore

/-- A look at the nearest token that tells no closer from another. -/
theorem kind_tail {f f' : Kind → Parser α} {p : Parser α} (hf : ∀ k : Kind, k.closes = true → f' k = p)
    (h : ∀ k, s.kind = k → Follows c d m s t (f k s) (f' k t)) :
    Follows c d m s t ((Grammar.kind >>= f) s) ((Grammar.kind >>= f') t) := by
  refine ⟨(h _ rfl).moves, fun rest hs => ?_⟩
  rw [kind_bind, kind_bind, ← hs.kind.congr hf]
  exact (h _ rfl).leads rest hs

theorem peek {n : Nat} {f f' : Kind → Parser α}
    (h : ∀ k k', Akin k k' → Follows c d m s t (f k s) (f' k' t)) :
    Follows c d m s t ((Grammar.peek n >>= f) s) ((Grammar.peek n >>= f') t) := by
  refine ⟨(h _ _ (.refl _)).moves, fun rest hs => ?_⟩
  exact (h _ _ (hs.peek n)).leads rest hs

/-- A look at the nearest token by a parser that takes it, if there is such a token before the closer. -/
theorem check_taking {k : Kind} {f f' : Bool → Parser α}
    (htakes : ∀ a s', f (s.kind == k) s = .ok a s' → s'.remaining < s.remaining)
    (h : ∀ b, (b = true → s.kind = k) → Follows c d m s t (f b s) (f' b t)) :
    Follows c d m s t ((Grammar.check k >>= f) s) ((Grammar.check k >>= f') t) :=
  show Follows c d m s t ((Grammar.kind >>= fun other => f (other == k)) s)
    ((Grammar.kind >>= fun other => f' (other == k)) t) from
  kind_taking htakes fun _ hother => h _ fun hk => hother.trans (beq_iff_eq.mp hk)

theorem check {k : Kind} {f f' : Bool → Parser α} (hk : k.told m = true)
    (h : ∀ b, (b = true → s.kind = k) → Follows c d m s t (f b s) (f' b t)) :
    Follows c d m s t ((Grammar.check k >>= f) s) ((Grammar.check k >>= f') t) := by
  have h := h (s.kind == k) beq_iff_eq.mp
  refine ⟨h.moves, fun rest hs a s' hrun hbefore => ?_⟩
  rw [check_bind, (hbefore.of_moves (h.moves a s' hrun)).beq_kind hk hs]
  exact h.leads rest hs a s' hrun hbefore

/-- The nearest token is taken, on the other side too if it is of the same kind there. -/
theorem taking {o o' : Outcome α} {f f' : Token → Parser α} (hne : s.kind ≠ .eof)
    (ho : o = (Grammar.advance >>= f) s) (ho' : t.kind = s.kind → o' = (Grammar.advance >>= f') t)
    (h : ∀ token token' s t, Same token token' → Follows c d m s t (f token s) (f' token' t)) :
    Follows c d m s t o o' := by
  subst ho
  have hmoves := (h s.current s.current s.advance s.advance (.refl _)).moves
  refine ⟨fun a s' hrun => (Moves.advance s).trans (hmoves a s' hrun), fun rest hs a s' hrun hbefore => ?_⟩
  have hlt : s'.remaining < s.remaining := by
    have hstep := State.remaining_advance hne
    exact Nat.lt_of_le_of_lt (hmoves a s' hrun).remaining_le (hstep ▸ Nat.lt_succ_self _)
  have hrest := (hbefore.of_takes ((Moves.advance s).trans (hmoves a s' hrun)) hlt).ne_nil hs
  rw [ho' (hs.kind_eq hrest)]
  obtain ⟨l, more, rfl⟩ := List.exists_cons_of_ne_nil hrest
  exact (h _ _ _ _ hs.current).leads more hs.advance a s' hrun hbefore

theorem advance {k : Kind} {f f' : Token → Parser α} (hkind : s.kind = k) (hne : (k == .eof) = false)
    (h : ∀ token token' s t, Same token token' → Follows c d m s t (f token s) (f' token' t)) :
    Follows c d m s t ((Grammar.advance >>= f) s) ((Grammar.advance >>= f') t) :=
  taking (hkind ▸ ne_of_beq_false hne) rfl (fun _ => rfl) h

theorem eat {k : Kind} {f f' : Bool → Parser α} (hk : k.told m = true) (hne : (k == .eof) = false)
    (h : ∀ b s t, Follows c d m s t (f b s) (f' b t)) :
    Follows c d m s t ((Grammar.eat k >>= f) s) ((Grammar.eat k >>= f') t) := by
  have steps (f : Bool → Parser α) (s : State) : (Grammar.eat k >>= f) s =
      (Grammar.check k >>= fun b => if b = true then Grammar.advance >>= fun _ => f true else f false) s := by
    rw [eat_bind, check_bind]
    by_cases h : s.kind = k <;> simp [h]
  rw [steps, steps]
  refine check hk fun b hb => ite (fun htrue => ?_) fun _ => h false s t
  exact advance (hb htrue) hne fun _ _ s t _ => h true s t

theorem expect {k : Kind} {f f' : Token → Parser α} (hne : (k == .eof) = false)
    (h : ∀ token token' s t, Same token token' → Follows c d m s t (f token s) (f' token' t)) :
    Follows c d m s t ((Grammar.expect k >>= f) s) ((Grammar.expect k >>= f') t) := by
  by_cases hkind : s.kind = k
  · have found {f : Token → Parser α} {s : State} (hkind : s.kind = k) :
        (Grammar.expect k >>= f) s = (Grammar.advance >>= f) s := by
      rw [expect_bind, if_pos hkind, advance_bind]
    exact taking (hkind ▸ ne_of_beq_false hne) (found hkind) (fun hother => found (hother.trans hkind)) h
  · rw [expect_bind, if_neg hkind]
    exact fail

theorem expectName {f f' : Ident → Parser α}
    (h : ∀ name name' s t, Same name name' → Follows c d m s t (f name s) (f' name' t)) :
    Follows c d m s t ((Grammar.expectName >>= f) s) ((Grammar.expectName >>= f') t) := by
  by_cases hkind : s.kind = .name
  · have found {f : Ident → Parser α} {s : State} (hkind : s.kind = .name) : (Grammar.expectName >>= f) s =
        (Grammar.advance >>= fun token => f ⟨token.text, token.range⟩) s := by
      rw [expectName_bind, if_pos hkind, advance_bind]
    refine taking (fun heof => ?_) (found hkind) (fun hother => found (hother.trans hkind)) ?_
    · rw [hkind] at heof
      cases heof
    · exact fun token token' s t htoken => h _ _ s t (congrArg (Ident.mk · .nowhere) htoken.text_eq)
  · rw [expectName_bind, if_neg hkind]
    exact fail

/-- What is done before a token that must come is not the last before the closer. -/
theorem upTo {k : Kind} {f f' : α → Token → Parser β} (hp : Follows c d (m + 1) s t (p s) (q t))
    (hne : (k == .eof) = false)
    (hf : ∀ a b token token' s t, Same a b → Follows c d m s t (f a token s) (f' b token' t)) :
    Follows c d m s t ((p >>= fun a => Grammar.expect k >>= f a) s)
      ((q >>= fun b => Grammar.expect k >>= f' b) t) := by
  refine bind_before hp (fun a b s t hab => expect hne fun _ _ s t _ => hf a b _ _ s t hab) ?_
  intro a s b s' hrun
  obtain ⟨token, u, hexpect, hfu⟩ := bind_eq_ok.mp hrun
  obtain ⟨hkind, -, rfl⟩ := expect_eq_ok.mp hexpect
  have hmoves := (hf a a token token s.advance s.advance (.refl a)).moves b s' hfu
  have hstep := State.remaining_advance (hkind ▸ ne_of_beq_false hne)
  exact Nat.lt_of_le_of_lt hmoves.remaining_le (hstep ▸ Nat.lt_succ_self _)

/-! ### Nodes -/

theorem node {shape shape' : Shape Node} {range range' : Range} (h : Same shape shape') :
    Follows c d m s t (Grammar.node shape range s) (Grammar.node shape' range' t) := by
  refine ⟨fun n s' hrun => ?_, fun rest hs n s' hrun _ => ?_⟩
  · obtain ⟨-, rfl⟩ := node_eq_ok.mp hrun
    exact .identified s
  · obtain ⟨rfl, rfl⟩ := node_eq_ok.mp hrun
    refine ⟨rest, _, _, rfl, ?_, hs.identified⟩
    rw [hs.nextId]
    exact .node h _ _ _

theorem close {start start' : Range} {shape shape' : Shape Node} (h : Same shape shape') :
    Follows c d m s t (Grammar.close start shape s) (Grammar.close start' shape' t) :=
  finish fun _ _ => node h

/-- Where something is reported nothing is claimed. -/
theorem report {err : ParseError} {o : Outcome Unit} : Follows c d m s t (Grammar.report err s) o := by
  refine ⟨fun _ s' hrun => ?_, fun rest hs _ s' hrun hbefore => ?_⟩
  · cases hrun
    exact .report s err
  · cases hrun
    exact hbefore.not_reported.elim

/-- Whether an `async` is held back is the same on both sides. -/
theorem hold {pending pending' : Option Range} {f f' : Unit → Parser α}
    (hpending : pending.isSome = pending'.isSome) (h : ∀ s t, Follows c d m s t (f () s) (f' () t)) :
    Follows c d m s t (((modify fun s => { s with pendingAsync := pending } : Parser Unit) >>= f) s)
      (((modify fun s => { s with pendingAsync := pending' } : Parser Unit) >>= f') t) := by
  have h := h { s with pendingAsync := pending } { t with pendingAsync := pending' }
  refine ⟨fun a s' hrun => (Moves.setPendingAsync s pending).trans (h.moves a s' hrun), fun rest hs => ?_⟩
  exact h.leads rest (hs.hold hpending)

theorem takePendingAsync :
    Follows c d m s t (Grammar.takePendingAsync s) (Grammar.takePendingAsync t) := by
  refine ⟨fun a s' hrun => ?_, fun rest hs a s' hrun _ => ?_⟩
  · cases hrun
    exact .setPendingAsync s none
  · cases hrun
    refine ⟨rest, t.pendingAsync, _, rfl, ?_, hs.hold rfl⟩
    show Option.map _ _ = Option.map _ _
    have hpending := hs.pendingAsync
    generalize s.pendingAsync = pending at hpending
    generalize t.pendingAsync = pending' at hpending
    cases pending <;> cases pending'
    · rfl
    · cases hpending
    · cases hpending
    · rfl

/-! ### Combinations -/

theorem withStructLiterals {allowed : Bool} (h : ∀ s t, Follows c d m s t (p s) (q t)) :
    Follows c d m s t (Grammar.withStructLiterals allowed p s) (Grammar.withStructLiterals allowed q t) := by
  have h := h { s with structLiterals := allowed } { t with structLiterals := allowed }
  refine ⟨fun a s' hrun => ?_, fun rest hs a s' hrun hbefore => ?_⟩
  · obtain ⟨u, hbody, rfl⟩ := withStructLiterals_eq_ok.mp hrun
    exact (h.moves a u hbody).withStructLiterals
  · obtain ⟨u, hbody, rfl⟩ := withStructLiterals_eq_ok.mp hrun
    obtain ⟨rest', b, u', hbody', hab, hu⟩ :=
      h.leads rest (hs.allow rfl) a u hbody ⟨hbefore.quiet, hbefore.room⟩
    exact ⟨rest', b, _, withStructLiterals_eq_ok.mpr ⟨u', hbody', rfl⟩, hab, hu.allow hs.structLiterals⟩

theorem nested (h : ∀ s t, Follows c d m s t (p s) (q t)) :
    Follows c d m s t (Grammar.nested p s) (Grammar.nested q t) := by
  have h := h { s with depth := s.depth + 1 } { t with depth := t.depth + 1 }
  refine ⟨fun a s' hrun => ?_, fun rest hs a s' hrun hbefore => ?_⟩
  · obtain ⟨u, hbody, rfl⟩ := nested_eq_ok.mp hrun
    exact (h.moves a u hbody).nested
  · obtain ⟨u, hbody, rfl⟩ := nested_eq_ok.mp hrun
    obtain ⟨rest', b, u', hbody', hab, hu⟩ := h.leads rest hs.nest a u hbody ⟨hbefore.quiet, hbefore.room⟩
    exact ⟨rest', b, _, nested_eq_ok.mpr ⟨u', hbody', rfl⟩, hab, hu.nest⟩

variable {step step' : α → Parser (ForInStep α)}

theorem repeatFrom (h : ∀ a b s t, Same a b → Follows c d m s t (step a s) (step' b t)) (a b : α)
    (s t : State) (hab : Same a b) :
    Follows c d m s t (Grammar.repeatFrom step a s) (Grammar.repeatFrom step' b t) := by
  fun_induction Grammar.repeatFrom step a s generalizing b t with
  | case1 a s a' u hstep =>
    have hfirst := h a b s t hab
    rw [hstep] at hfirst
    refine ⟨fun x s' hrun => ?_, fun rest hs x s' hrun hbefore => ?_⟩
    · cases hrun
      exact hfirst.moves _ _ rfl
    · cases hrun
      obtain ⟨rest', r, u', hstep', hsame, hu⟩ := hfirst.leads rest hs _ _ rfl hbefore
      cases r with
      | yield b' => cases hsame
      | done b' => exact ⟨rest', b', u', repeatFrom_of_done hstep', ForInStep.done.inj hsame, hu⟩
  | case2 a s a' u hstep hlt ih =>
    have hfirst := h a b s t hab
    rw [hstep] at hfirst
    have hmoves := hfirst.moves _ _ rfl
    have hself := ih a' u (.refl a')
    refine ⟨fun x s' hrun => hmoves.trans (hself.moves x s' hrun), fun rest hs x s' hrun hbefore => ?_⟩
    obtain ⟨rest', r, u', hstep', hsame, hu⟩ :=
      hfirst.leads rest hs _ _ rfl (hbefore.of_moves (hself.moves x s' hrun))
    cases r with
    | done b' => cases hsame
    | yield b' =>
      obtain ⟨rest'', y, t', hrun', hxy, ht⟩ :=
        (ih b' u' (ForInStep.yield.inj hsame)).leads rest' hu x s' hrun hbefore
      rw [← repeatFrom_of_yield hstep' ((hs.remaining_lt_iff hu).mpr hlt)] at hrun'
      exact ⟨rest'', y, t', hrun', hxy, ht⟩
  | case3 a s a' u hstep hge =>
    have hfirst := h a b s t hab
    rw [hstep] at hfirst
    refine ⟨fun x s' hrun => ?_, fun rest hs x s' hrun hbefore => ?_⟩
    · cases hrun
      exact hfirst.moves _ _ rfl
    · cases hrun
      obtain ⟨rest', r, u', hstep', hsame, hu⟩ := hfirst.leads rest hs _ _ rfl hbefore
      cases r with
      | done b' => cases hsame
      | yield b' =>
        have hrun' : Grammar.repeatFrom step' b t = .ok b' u' :=
          repeatFrom_of_idle hstep' fun hlt => hge ((hs.remaining_lt_iff hu).mp hlt)
        exact ⟨rest', b', u', hrun', ForInStep.yield.inj hsame, hu⟩
  | case4 a s err u hstep => exact fail

theorem repeating {a b : α} (hab : Same a b)
    (h : ∀ a b s t, Same a b → Follows c d m s t (step a s) (step' b t)) :
    Follows c d m s t (Grammar.repeating a step s) (Grammar.repeating b step' t) := repeatFrom h a b s t hab

end Follows

/-! ### Lists and optional parts -/

theorem Keeps.nested [Ranged α] {p : Parser α} (h : Keeps c d m p) : Keeps c d m (nested p) :=
  fun _ _ => .nested h

theorem Keeps.tooDeep [Ranged α] : Keeps c d m (tooDeep : Parser α) := fun _ _ => .fail

namespace Follows

theorem listStep {close : Kind} {item : Parser Node} (h : Keeps c d (m + 1) item) {items items' : Array Node}
    (hitems : Same items items') :
    Follows c d (m + 1) s t (Grammar.listStep close item items s) (Grammar.listStep close item items' t) := by
  refine check rfl fun _ _ => ite (fun _ => pure (congrArg ForInStep.done hitems)) fun _ => ?_
  refine bind (h s t) fun n n' s t hn => eat rfl rfl fun _ s t => ite (fun _ => ?_) fun _ => ?_
  · exact pure (congrArg ForInStep.yield (hitems.push hn))
  · exact pure (congrArg ForInStep.done (hitems.push hn))

theorem list {close : Kind} {item : Parser Node} (hne : (close == .eof) = false)
    (h : Keeps c d (m + 1) item) :
    Follows c d m s t (Grammar.list close item s) (Grammar.list close item t) :=
  withStructLiterals fun _ _ =>
    upTo (repeating (.refl _) fun _ _ _ _ hitems => listStep h hitems) hne fun _ _ _ _ _ _ hitems =>
      pure hitems.toList

theorem optionalAfter {k : Kind} {item : Parser Node} (hk : k.told m = true) (hne : (k == .eof) = false)
    (h : Keeps c d m item) :
    Follows c d m s t (Grammar.optionalAfter k item s) (Grammar.optionalAfter k item t) :=
  eat hk hne fun _ s t => ite
    (fun _ => bind (h s t) fun _ _ _ _ hn => pure (congrArg some hn)) fun _ => pure (.refl _)

end Follows

/-- What the rules one level deeper do side by side. Statements, members and branches stand inside braces, so
    something is left behind them. -/
structure Rules.Keep (r : Rules) (c d : Kind) : Prop where
  expression (m : Nat) : Keeps c d m r.expression
  type (m : Nat) : Keeps c d m r.type
  block (m : Nat) : Keeps c d m r.block
  operand (limit m : Nat) : Keeps c d m (r.operand limit)
  unary (m : Nat) : Keeps c d m r.unary
  statement (m : Nat) : Keeps c d (m + 1) r.statement
  structMember (m : Nat) : Keeps c d (m + 1) r.structMember
  elseIf (m : Nat) : Keeps c d (m + 1) r.elseIf
  read : r.Read

end Grammar

end BraceLang
