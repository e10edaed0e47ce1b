import BraceLang.Binding.Error
import BraceLang.Diagnostic.Log
import BraceLang.Diagnostic.Suggestion
import BraceLang.Scope

/-! Binding: every use of a name is linked to its declaration, and every `return`, `break` and `continue`
    to the function or loop it leaves. One pass goes through the tree in source order, opening and
    closing scopes as it enters and leaves the constructs that have one. Functions and types can be used
    in their whole scope, all other names after their declaration. -/

namespace BraceLang

namespace Binder

/-- A construct that a jump can leave. -/
inductive Context where
  | function (id : NodeId)
  | closure (id : NodeId)
  | loop (id : NodeId)
deriving DecidableEq

/-- What is known on the way through a tree. -/
structure State where
  log : Log
  scopes : ScopeStack
  /-- The constructs around this place that a jump can leave, innermost first. -/
  contexts : List Context
  /-- The number of names linked so far. -/
  resolved : Nat
  /-- The number of errors reported so far. -/
  errors : Nat

/-- A step on the way through a tree. -/
abbrev BindM := StateM State

/-- Reports an error. -/
def report (e : BindError) : BindM Unit :=
  modify fun s => { s with log := s.log.push e.toDiagnostic, errors := s.errors + 1 }

/-- Declares a name in the innermost scope. A second declaration is reported and has no effect. -/
def declare (name : Ident) (decl : NodeId) : BindM Unit := do
  match (← get).scopes.define name.text ⟨decl, some name.range⟩ with
  | .ok scopes => modify fun s => { s with scopes }
  | .error first => report ⟨.redefinition name.text first.range, some name.range⟩

/-- The name of a declaration that can be used before it is made: a function or type. -/
def hoistedName? (n : Node) : Option Ident :=
  match n.shape with
  | .func _ _ _ name .. | .struct _ _ name .. | .enum _ _ name .. | .union _ _ name ..
  | .typeAlias _ _ name .. => some name
  | _ => none

/-- Declares a function or type ahead of its place. -/
def hoist (n : Node) : BindM Unit :=
  match hoistedName? n with
  | some name => declare name n.id
  | none => pure ()

/-- The declaration a use of `name` refers to. A name that is not declared is reported. -/
def resolve (name : String) (range : Range) : BindM (Option NodeId) := do
  let s ← get
  match s.scopes.lookup? name with
  | some b =>
    set { s with resolved := s.resolved + 1 }
    return some b.decl
  | none =>
    report ⟨.undefined name (Suggestion.question? name s.scopes.visibleNames), some range⟩
    return none

/-- The innermost function or closure. -/
def enclosingFunction? (contexts : List Context) : Option NodeId :=
  contexts.findSome? fun
    | .function id | .closure id => some id
    | .loop _ => none

/-- The innermost loop, if no function or closure lies between. -/
def enclosingLoop? : List Context → Option NodeId
  | .loop id :: _ => some id
  | _ => none

/-- The target of a jump. A jump with nothing to leave is reported. -/
def jump (target : List Context → Option NodeId) (cause : BindCause) (range : Range) :
    BindM (Option NodeId) := do
  match target (← get).contexts with
  | some id => return some id
  | none =>
    report ⟨cause, some range⟩
    return none

/-- Runs `body` in a scope of its own. -/
def inScope {α : Type} (body : BindM α) : BindM α := do
  modify fun s => { s with scopes := s.scopes.push }
  let a ← body
  modify fun s => { s with scopes := s.scopes.pop }
  return a

/-- Runs `body` in a scope of its own if `own`. -/
def inScopeIf {α : Type} (own : Bool) (body : BindM α) : BindM α :=
  if own then inScope body else body

/-- Runs `body` inside a construct that a jump can leave. -/
def inContext {α : Type} (context : Context) (body : BindM α) : BindM α := do
  modify fun s => { s with contexts := context :: s.contexts }
  let a ← body
  modify fun s => { s with contexts := s.contexts.tail }
  return a

/-- The two ways to bind a node: as such, and as an attribute. -/
structure Passes where
  whole : BindM Node
  asAttribute : BindM Node

/-- A part of a node with the ways to bind it. -/
abbrev Part := Node × Passes

/-- Binds a part. -/
def visit (part : Part) : BindM Node := part.2.whole

/-- Binds a part as an attribute. -/
def visitAttribute (part : Part) : BindM Node := part.2.asAttribute

/-- Binds a list in which functions and types can be used before they are declared. -/
def visitScope (parts : List Part) : BindM (List Node) := do
  parts.forM fun part => hoist part.1
  parts.mapM visit

/-- Whether a node is a bare name. -/
def isName (n : Node) : Bool :=
  match n.shape with
  | .name _ => true
  | _ => false

/-- Whether a node declares variables. -/
def isVariable (n : Node) : Bool :=
  match n.shape with
  | .var .. => true
  | _ => false

/-- Binds a macro's target. A bare name is that of the macro and declared nowhere. -/
def visitMacroTarget (target : Part) : BindM Node :=
  if isName target.1 then pure target.1 else visit target

/-- Binds a node: links it if it is a use or a jump, goes through its parts, and declares its names. -/
def bindWhole (n : Node) (parts : Shape Part) : BindM Node :=
  match parts with
  | .name text => do
    return { n with resolved := ← resolve text n.range }
  | .named head path args => do
    let resolved ← resolve head.text head.range
    return { n with resolved, shape := .named head path (← args.mapM visit) }
  | .member target member optional => do
    -- what a member stands for depends on the type of the target
    return { n with shape := .member (← visit target) member.1 optional }
  | .macroName target => do
    return { n with shape := .macroName (← visitMacroTarget target) }
  | .macroCall target args => do
    let target ← visitMacroTarget target
    return { n with shape := .macroCall target (← args.mapM visit) }
  | .returned value => do
    let resolved ← jump enclosingFunction? .returnOutsideFunction n.range
    return { n with resolved, shape := .returned (← value.mapM visit) }
  | .broken => do
    return { n with resolved := ← jump enclosingLoop? .breakOutsideLoop n.range }
  | .continued => do
    return { n with resolved := ← jump enclosingLoop? .continueOutsideLoop n.range }
  | .var attrs modifiers isConst pattern type init => do
    let attrs ← attrs.mapM visitAttribute
    let type ← type.mapM visit
    let init ← init.mapM visit
    pattern.names.forM (declare · n.id)
    return { n with shape := .var attrs modifiers isConst pattern type init }
  | .func attrs modifiers isAsync name operator generics signature body => do
    let attrs ← attrs.mapM visitAttribute
    inScope do
      let generics ← generics.mapM visit
      let signature ← visit signature
      let body ← inContext (.function n.id) (body.mapM visit)
      return { n with
        shape := .func attrs modifiers isAsync name operator generics signature body }
  | .closure isAsync signature body =>
    inScope do
      let signature ← visit signature
      let body ← inContext (.closure n.id) (visit body)
      return { n with shape := .closure isAsync signature body }
  | .param name type default => do
    let type ← type.mapM visit
    let default ← default.mapM visit
    declare name n.id
    return { n with shape := .param name type default }
  | .generic name constraints => do
    let constraints ← constraints.mapM visit
    declare name n.id
    return { n with shape := .generic name constraints }
  | .struct attrs modifiers name generics members => do
    let attrs ← attrs.mapM visitAttribute
    inScope do
      let generics ← generics.mapM visit
      return { n with shape := .struct attrs modifiers name generics (← visitScope members) }
  | .field attrs isPrivate name type default => do
    let attrs ← attrs.mapM visitAttribute
    let type ← visit type
    let default ← default.mapM visit
    declare name n.id
    return { n with shape := .field attrs isPrivate name type default }
  | .enum attrs modifiers name base options => do
    let attrs ← attrs.mapM visitAttribute
    let base ← base.mapM visit
    inScope do
      return { n with shape := .enum attrs modifiers name base (← options.mapM visit) }
  | .enumOption attrs name value => do
    let attrs ← attrs.mapM visitAttribute
    let value ← value.mapM visit
    declare name n.id
    return { n with shape := .enumOption attrs name value }
  | .typeAlias attrs modifiers name generics type => do
    let attrs ← attrs.mapM visitAttribute
    inScope do
      let generics ← generics.mapM visit
      return { n with shape := .typeAlias attrs modifiers name generics (← visit type) }
  | .union attrs modifiers name generics members => do
    let attrs ← attrs.mapM visitAttribute
    inScope do
      let generics ← generics.mapM visit
      return { n with shape := .union attrs modifiers name generics (← members.mapM visit) }
  | .block statements =>
    inScope do
      return { n with shape := .block (← visitScope statements) }
  | .ifElse condition thenBranch elseBranch =>
    -- a variable declared in the condition is visible in both branches
    inScopeIf (isVariable condition.1) do
      let condition ← visit condition
      let thenBranch ← visit thenBranch
      return { n with shape := .ifElse condition thenBranch (← elseBranch.mapM visit) }
  | .whileLoop condition body =>
    inScopeIf (isVariable condition.1) do
      let condition ← visit condition
      return { n with shape := .whileLoop condition (← inContext (.loop n.id) (visit body)) }
  | .forLoop init condition step body =>
    inScope do
      let init ← init.mapM visit
      inContext (.loop n.id) do
        let condition ← condition.mapM visit
        let step ← step.mapM visit
        return { n with shape := .forLoop init condition step (← visit body) }
  | .deferred stmt => do
    hoist stmt.1
    return { n with shape := .deferred (← visit stmt) }
  | parts => do
    return { n with shape := ← parts.traverse visit }

/-- Binds an attribute. Its name is declared nowhere, so only its arguments are bound. -/
def bindAttribute (n : Node) (parts : Shape Part) : BindM Node :=
  match parts with
  | .name _ => pure n
  | .call callee args =>
    if isName callee.1 then do
      return { n with shape := .call callee.1 (← args.mapM visit) }
    else bindWhole n parts
  | parts => bindWhole n parts

/-- The two ways to bind a node, from those for its parts. -/
def passes (n : Node) : Passes :=
  n.fold fun n parts => ⟨bindWhole n parts, bindAttribute n parts⟩

/-- Binds a list of items at the top of a program. -/
def bindItems (items : List Node) : BindM (List Node) :=
  visitScope (items.map fun n => (n, passes n))

end Binder

/-- Counts of what binding did. -/
structure BindSummary where
  scopesOpened : Nat
  scopesClosed : Nat
  framesAllocated : Nat
  maxDepth : Nat
  /-- The number of names linked to a declaration. -/
  resolved : Nat
  errors : Nat
deriving DecidableEq

/-- Binds a program in one scope around all its items, reporting into the log. -/
def bind (program : Program) (log : Log) : Program × Log × BindSummary :=
  let (items, s) := (Binder.inScope (Binder.bindItems program.items)).run
    { log, scopes := .empty, contexts := [], resolved := 0, errors := 0 }
  ({ program with items }, s.log,
    { scopesOpened := s.scopes.opened
      scopesClosed := s.scopes.closed
      framesAllocated := s.scopes.framesAllocated
      maxDepth := s.scopes.maxDepth
      resolved := s.resolved
      errors := s.errors })

end BraceLang
