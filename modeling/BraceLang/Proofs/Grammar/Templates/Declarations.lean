import BraceLang.Proofs.Grammar.Templates.Expressions

/-! Templates in declarations. The rules for declarations take no token of a template themselves; what stands
    between their own tokens is read by rules that take templates whole. -/

namespace BraceLang.Grammar.Sparing

variable {x : HollowText} {r : Rules} {pre : Prop} {s : State}

/-! ### Attributes and generic parameters -/

theorem attributeStep (h : r.Spare x) (attrs : List Node) (s : State) :
    Spares x (x.AllSound attrs) (fun step => x.AllSound step.value) s (attributeStep r attrs s) :=
  .eat rfl fun _ _ => .ite
    (fun _ => .expect rfl fun _ _ => .bind (.list rfl h.value) fun _ _ =>
      .pure fun ⟨hattrs, hmore⟩ => hattrs.append hmore)
    fun _ => .pure id

theorem attributes (h : r.Spare x) : Sparing x x.AllSound (attributes r) :=
  fun _ _ => .repeating (fun _ => .nil) fun attrs t => attributeStep h attrs t

theorem barStep (h : r.Spare x) (types : Array Node) (s : State) :
    Spares x (x.AllSound types.toList) (fun step => x.AllSound step.value.toList) s
      (barStep r types s) :=
  .bind (h.type _ s) fun _ _ => .eat rfl fun _ _ => .ite
    (fun _ => .pure fun ⟨htypes, htype⟩ => htypes.push htype)
    fun _ => .pure fun ⟨htypes, htype⟩ => htypes.push htype

theorem constraints (h : r.Spare x) : Sparing x x.AllSound (constraints r) :=
  fun _ _ => .eat rfl fun _ _ => .ite
    (fun _ => .bind (.repeating (fun _ => .nil) fun types t => barStep h types t) fun _ _ => .pure And.right)
    fun _ => .pure fun _ => .nil

theorem genericParameter (h : r.Spare x) : Sparing x x.Sound (genericParameter r) :=
  fun _ _ => .here (.expectName fun _ t => .bind (constraints h _ t) fun _ _ =>
    .close fun ⟨_, htypes⟩ => ⟨rfl, htypes⟩)

theorem generics (h : r.Spare x) : Sparing x x.AllSound (generics r) :=
  fun _ _ => .eat rfl fun _ _ => .ite (fun _ => .list rfl (genericParameter h)) fun _ => .pure fun _ => .nil

/-! ### Variables -/

theorem patternStep (names : Array Ident) (s : State) :
    Spares x True (fun _ => True) s (patternStep names s) :=
  .check fun _ _ => .ite (fun _ => .pure id) fun _ => .expectName fun _ _ => .eat rfl fun _ _ =>
    .ite (fun _ => .pure id) fun _ => .pure id

theorem pattern (start : Range) : Sparing x (fun _ => True) (pattern start) := by
  refine fun _ s => .eat rfl fun _ t => .ite (fun _ => ?_) fun _ => ?_
  · refine .seq (.repeating (fun _ => trivial) patternStep) fun names u => .expect rfl fun _ v => ?_
    cases names.toList with
    | cons first others => exact .pure fun _ => trivial
    | nil => exact .finish fun _ => .fail
  · exact .expectName fun _ _ => .pure fun _ => trivial

theorem variableKeyword : Sparing x (fun _ => True) variableKeyword :=
  fun _ _ => .eat rfl fun _ _ => .ite (fun _ => .pure fun _ => trivial) fun _ =>
    .expect rfl fun _ _ => .pure fun _ => trivial

theorem variableDecl (h : r.Spare x) {attrs : List Node} (hattrs : pre → x.AllSound attrs)
    (mods : Modifiers) (start : Range) (required : Bool) (s : State) :
    Spares x pre x.Sound s (variableDecl r attrs mods start required s) :=
  .seq (variableKeyword _ s) fun _ t => .seq (pattern start _ t) fun _ _ =>
    .bind (.optionalAfter rfl h.type) fun _ _ => .bind (.optionalAfter rfl h.value) fun _ _ =>
      .ite (fun _ => .unexpected) fun _ =>
        .close fun ⟨⟨hpre, htype⟩, hinit⟩ => ⟨rfl, ((hattrs hpre).append htype).append hinit⟩

/-! ### Functions -/

theorem overload (k : Kind) (start : Range) (name : String) :
    Sparing x (fun _ => True) (overload k start name) :=
  fun _ _ => .finish fun _ => .pure fun _ => trivial

theorem functionName : Sparing x (fun _ => True) functionName := by
  refine fun _ s => .kind fun k hk => .here ?_
  split
  · exact .expectName fun _ _ => .pure fun _ => trivial
  · exact .advance hk rfl (overload _ _ _ _ _)
  · exact .advance hk rfl (.expect rfl fun _ _ => .eat rfl fun _ u => overload _ _ _ _ u)
  · exact .advance hk rfl (.expect rfl fun _ u => overload _ _ _ _ u)
  · cases hname : k.operatorName? with
    | some name =>
      have hrole : k.operatorName?.isSome = true := by rw [hname, Option.isSome_some]
      exact .advance hk (Kind.isTemplate_of_role (·.operatorName?.isSome) hrole rfl) (overload _ _ _ _ _)
    | none => exact .unexpected

theorem functionBody (h : r.Spare x) : Sparing x (fun body => x.AllSound body.toList) (functionBody r) := by
  refine fun _ s => .check fun _ _ => .ite (fun _ => ?_) fun _ => ?_
  · exact .bind (h.block _ s) fun _ _ => .pure fun ⟨_, hbody⟩ => .single hbody
  refine .eat rfl fun _ t => .ite (fun _ => ?_) fun _ => ?_
  · exact .bind (h.value _ t) fun _ _ => .pure fun ⟨_, hbody⟩ => .single hbody
  refine .eat rfl fun _ u => .ite (fun _ => .pure fun _ => .nil) fun _ => .kind fun k _ => ?_
  split
  · exact .pure fun _ => .nil
  · exact .pure fun _ => .nil
  · exact .ite (fun _ => .pure fun _ => .nil) fun _ => .unexpected

theorem functionAsync {entry : Prop} : SparesFrom x entry pre (fun _ => True) s (functionAsync s) := by
  refine .seq takePendingAsync fun pending t => ?_
  cases pending with
  | some range => exact .pure fun _ => trivial
  | none => exact .eaten rfl

theorem functionGenerics (h : r.Spare x) (operator : Option Kind) :
    Sparing x x.AllSound (functionGenerics r operator) :=
  fun _ s => .ite (fun _ => generics h _ s) fun _ => .pure fun _ => .nil

theorem functionDecl {entry : Prop} (h : r.Spare x) {attrs : List Node} (hattrs : pre → x.AllSound attrs)
    (mods : Modifiers) (start : Range) (s : State) :
    SparesFrom x entry pre x.Sound s (functionDecl r attrs mods start s) := by
  refine .seq functionAsync fun _ _ => .expect rfl fun _ t => .seq (functionName _ t) ?_
  rintro ⟨name, operator⟩ u
  refine .bind (functionGenerics h operator _ u) fun params v => .bind (callSignature h _ v) ?_
  refine fun signature w => .bind (functionBody h _ w) fun body _ => .close ?_
  rintro ⟨⟨⟨hpre, hparams⟩, hsignature⟩, hbody⟩
  exact ⟨rfl, ((hattrs hpre).append hparams).append (hbody.cons hsignature)⟩

/-! ### Types -/

theorem enumOption (h : r.Spare x) : Sparing x x.Sound (enumOption r) :=
  fun _ s => .here (.bind (attributes h _ s) fun _ _ => .expectName fun _ _ =>
    .bind (.optionalAfter rfl h.value) fun _ _ =>
      .close fun ⟨⟨_, hattrs⟩, hvalue⟩ => ⟨rfl, hattrs.append hvalue⟩)

theorem requireOptions (options : List Node) (range : Range) :
    Sparing x (fun _ => True) (requireOptions options range) :=
  fun _ s => .ite (fun _ => .across (.report s _) id (.of_ahead_eq rfl) (.pure fun _ => trivial))
    fun _ => .pure fun _ => trivial

theorem enumDecl (h : r.Spare x) {attrs : List Node} (hattrs : pre → x.AllSound attrs)
    (mods : Modifiers) (start : Range) (s : State) :
    Spares x pre x.Sound s (enumDecl r attrs mods start s) :=
  .expect rfl fun _ _ => .expectName fun _ _ => .bind (.optionalAfter rfl h.type) fun _ _ =>
    .expect rfl fun _ _ => .bind (.list rfl (enumOption h)) fun options _ => .finish fun range =>
      .seq (requireOptions options range _ _) fun _ _ => .node fun ⟨⟨hpre, hbase⟩, hoptions⟩ =>
        ⟨rfl, ((hattrs hpre).append hbase).append hoptions⟩

theorem unionStep (h : r.Spare x) (members : Array Node) (s : State) :
    Spares x (x.AllSound members.toList) (fun step => x.AllSound step.value.toList) s
      (unionStep r members s) :=
  .eat rfl fun _ t => .ite
    (fun _ => .bind (h.type _ t) fun _ _ => .pure fun ⟨hmembers, htype⟩ => hmembers.push htype)
    fun _ => .pure id

theorem unionMembers (h : r.Spare x) {first : Node} (hfirst : pre → x.Sound first) (s : State) :
    Spares x pre x.AllSound s (unionMembers r first s) :=
  .bind (.repeating (fun hpre => .single (hfirst hpre)) fun members t => unionStep h members t)
    fun _ _ => .pure And.right

theorem typeDecl (h : r.Spare x) {attrs : List Node} (hattrs : pre → x.AllSound attrs)
    (mods : Modifiers) (start : Range) (s : State) :
    Spares x pre x.Sound s (typeDecl r attrs mods start s) := by
  refine .expect rfl fun _ _ => .expectName fun _ t => .bind (generics h _ t) fun params _ => ?_
  refine .expect rfl fun _ u => .bind (h.type _ u) fun first v => .check fun _ _ => .ite (fun _ => ?_) ?_
  · exact .bind (unionMembers h And.right v) fun _ _ => .close fun ⟨⟨⟨hpre, hparams⟩, _⟩, hmembers⟩ =>
      ⟨rfl, ((hattrs hpre).append hparams).append hmembers⟩
  · exact fun _ => .close fun ⟨⟨hpre, hparams⟩, hfirst⟩ =>
      ⟨rfl, ((hattrs hpre).append hparams).append (.single hfirst)⟩

theorem skipSeparators : Sparing x (fun _ => True) skipSeparators :=
  fun _ _ => .repeating (fun _ => trivial) fun _ _ =>
    .eat rfl fun _ _ => .ite (fun _ => .pure fun _ => trivial) fun _ =>
      .eat rfl fun _ _ => .ite (fun _ => .pure fun _ => trivial) fun _ => .pure fun _ => trivial

theorem structMemberStep (h : r.Spare x) (members : Array Node) (s : State) :
    Spares x (x.AllSound members.toList) (fun step => x.AllSound step.value.toList) s
      (structMemberStep r members s) := by
  refine .kind fun k _ => ?_
  split
  · exact .pure id
  · exact .pure id
  · exact .bind (h.structMember _ s) fun _ t => .seq (skipSeparators _ t) fun _ _ =>
      .pure fun ⟨hmembers, hmember⟩ => hmembers.push hmember

theorem structDecl (h : r.Spare x) {attrs : List Node} (hattrs : pre → x.AllSound attrs)
    (mods : Modifiers) (start : Range) (s : State) :
    Spares x pre x.Sound s (structDecl r attrs mods start s) := by
  refine .expect rfl fun _ _ => .expectName fun _ t => .bind (generics h _ t) fun params _ => ?_
  refine .expect rfl fun _ _ => .bind (.withStructLiterals
    (.repeating (fun _ => .nil) fun members u => structMemberStep h members u)) fun members _ => ?_
  exact .expect rfl fun _ _ => .close fun ⟨⟨hpre, hparams⟩, hmembers⟩ =>
    ⟨rfl, ((hattrs hpre).append hparams).append hmembers⟩

/-! ### Any declaration -/

theorem modifiers : Sparing x (fun _ => True) modifiers := by
  refine fun _ s => .repeating (fun _ => trivial) fun mods t => .kind fun k hk => ?_
  split
  · exact .advance hk rfl (.pure fun _ => trivial)
  · exact .advance hk rfl (.pure fun _ => trivial)
  · exact .pure fun _ => trivial

theorem declarationAfter (h : r.Spare x) {attrs : List Node} (hattrs : pre → x.AllSound attrs)
    (start : Range) (s : State) :
    Spares x pre x.Sound s (declarationAfter r attrs start s) := by
  refine .seq (modifiers _ s) fun mods t => .kind fun k _ => ?_
  split
  · exact structDecl h hattrs mods start t
  · exact enumDecl h hattrs mods start t
  · exact typeDecl h hattrs mods start t
  · exact variableDecl h hattrs mods start false t
  · exact variableDecl h hattrs mods start false t
  · exact functionDecl h hattrs mods start t
  · exact functionDecl h hattrs mods start t
  · exact .unexpected

theorem declaration (h : r.Spare x) : Sparing x x.Sound (declaration r) :=
  fun _ s => .here (.bind (attributes h _ s) fun _ t => declarationAfter h And.right _ t)

theorem structField (h : r.Spare x) {attrs : List Node} (hattrs : pre → x.AllSound attrs)
    (start : Range) (s : State) : Spares x pre x.Sound s (structField r attrs start s) :=
  .eat rfl fun _ _ => .expectName fun _ _ => .expect rfl fun _ t => .bind (h.type _ t) fun _ _ =>
    .bind (.optionalAfter rfl h.value) fun _ _ => .close fun ⟨⟨hpre, htype⟩, hdefault⟩ =>
      ⟨rfl, (hattrs hpre).append (hdefault.cons htype)⟩

theorem structMemberRule (h : r.Spare x) : Sparing x x.Sound (structMemberRule r) := by
  refine fun _ s => .here (.bind (attributes h _ s) fun attrs t => ?_)
  refine .check fun _ _ => .check fun _ _ => .look .peek fun _ => .ite (fun _ => ?_) fun _ => ?_
  · exact structField h And.right _ t
  · exact declarationAfter h And.right _ t

end BraceLang.Grammar.Sparing
