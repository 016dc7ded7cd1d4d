import Lifecycle.Diagnostic.Basic
import Lifecycle.Flow.Oracle
import Lifecycle.Operators.Resolve
import Lifecycle.Trace.Log

/-!
# Putting lifecycle operations into a routine

A typed body says which values there are and where they go. The injection makes explicit when each
value is moved, copied and destroyed. Operations that are due when a lexical region is left collect
in a `Scope`. Open scopes form a stack, so a scope is named by its depth.
-/

namespace Lifecycle

structure InjectOptions where
  perfHints : Bool := true
  cycleWarnings : Bool := true
deriving DecidableEq

inductive InjectFailure where
  | fault (f : Fault)
  | noRule (head : Head)
  | notNested (head : Head)
  | scopeOrder (scope depth : Nat)

namespace InjectFailure

def message : InjectFailure → Text
  | .fault f => f.message
  | .noRule h => "cannot inject destructors into node kind " ++ h.kind.text
  | .notNested h => "unexpected nested node " ++ h.kind.text
  | .scopeOrder s d =>
    "scope " ++ Text.ofNat s ++ " closed out of order (depth " ++ Text.ofNat d ++ ")"

def head? : InjectFailure → Option Head
  | .noRule h | .notNested h => some h
  | .fault _ | .scopeOrder _ _ => none

def span (f : InjectFailure) : Span :=
  match f.head? with
  | some h => h.span
  | none => {}

def text (f : InjectFailure) : Text :=
  match f.head? with
  | some h =>
    "destructors: " ++ f.message ++ " (node " ++ h.kind.text ++ " at " ++ h.span.text ++ ")"
  | none => "destructors: " ++ f.message

end InjectFailure

abbrev ScopeId := Nat

structure Scope where
  vars : List SymRef := []
  resets : List Node := []
  finals : List Node := []
  leftEarly : Bool := false
  parent : Option ScopeId := none

def Scope.isIdle (s : Scope) : Bool := s.resets.isEmpty && s.finals.isEmpty

/-- What happens to a value: it is only looked at, its taker comes to own it, or it goes to a
parameter that owns it. -/
inductive Mode where
  | normal
  | consumed
  | sinkArg
deriving DecidableEq

structure Shared where
  ops : OpState := {}
  trace : TraceLog := {}
  sites : Nat := 1

structure InjectContext where
  types : TypeTable
  routine : Routine
  options : InjectOptions := {}
  span : UInt64 := 0

structure InjectState extends Shared where
  oracle : Oracle
  scopes : List Scope := []
  loops : Nat := 0
  conditions : Nat := 0
  temps : Nat := 0
  names : Dict Text Nat := {}
  declared : Dict SymRef ScopeId := {}
  /-- The access that ruled out the last move, if one did. -/
  otherRead : Option Node := none
  globals : List Node := []
  failed : Bool := false
  reports : List Diagnostic := []

abbrev InjectM := ReaderT InjectContext (EStateM InjectFailure InjectState)

namespace InjectM

instance : MonadLift (Except Fault) InjectM where
  monadLift
    | .ok a => pure a
    | .error e => throw (.fault e)

def ops {α : Type} (m : OpM α) : InjectM α := do
  let s ← get
  match m.run s.ops with
  | .ok a ops =>
    set { s with ops }
    return a
  | .error e ops =>
    set { s with ops }
    throw (.fault e)

def symbols : InjectM Symbols := return (← get).ops.symbols

def owner : InjectM (Option SymRef) := return (← read).routine.sym

def printer : InjectM Printer := return { symbols := ← symbols, types := (← read).types }

def shapeOf (type : TypeId) : InjectM TypeKind := return (← read).types.shapeOf type

def isVoid (type : TypeId) : InjectM Bool := return (← read).types.isEmpty type

def isOwning (type : TypeId) : InjectM Bool := do
  if ← isVoid type then return false
  ops (OpM.needsLifecycle (← read).types type)

/-! ## New nodes -/

def node (h : Head) (kids : List Node) : InjectM Node := do
  let s ← get
  set { s with sites := s.sites + 1 }
  return .node { h with site := s.sites } kids

def tree (kind : NodeKind) (type : TypeId) (kids : List Node) : InjectM Node :=
  node { kind, type, span := Node.spanOf kids } kids

def copy (n : Node) : InjectM Node := do
  let s ← get
  let (n, sites) := n.relabel s.sites
  set { s with sites }
  return n

def emptyAt (span : Span) : InjectM Node := node { kind := .empty, span } []

def stmts (span : Span) (kids : List Node) : InjectM Node := node { kind := .stmtList, span } kids

def fastAsgn (dest src : Node) : InjectM Node := tree .fastAsgn 0 [dest, src]

def symNode (r : SymRef) (span : Span) : InjectM Node := do
  let s := (← symbols).get r
  node { kind := .sym, sym := some r, type := s.type, span := span.orElse s.span } []

def call (fn : SymRef) (type : TypeId) (span : Span) (args : List Node) : InjectM Node := do
  node { kind := .call, span, type } ((← symNode fn span) :: args)

def withKids (n : Node) (kids : List Node) : InjectM Node := do
  node (← n.info) (kids ++ (n.kids.drop kids.length).map fun _ => .hole)

/-! ## New symbols -/

def newSymbol (kind : SymKind) (name : Text) (type : TypeId) (span : Span) : InjectM SymRef := do
  let owner ← owner
  let s ← get
  let (r, symbols) := s.ops.symbols.fresh { name, kind, owner, type, span }
  set { s with ops := { s.ops with symbols } }
  return r

def tempName (base : Text) : InjectM Text := do
  let s ← get
  let k := s.names.getD base 0
  set { s with temps := s.temps + 1, names := s.names.insert base (k + 1) }
  return if k = 0 then base else base ++ "_" ++ Text.ofNat k

/-! ## Scopes -/

def openScope (parent : Option ScopeId) : InjectM ScopeId := do
  let s ← get
  set { s with scopes := s.scopes ++ [({ parent } : Scope)] }
  return s.scopes.length

def scope (i : ScopeId) : InjectM Scope := do
  match (← get).scopes[i]? with
  | some sc => return sc
  | none => throw (.fault .absent)

def modifyScope (i : ScopeId) (f : Scope → Scope) : InjectM Unit := do
  let _ ← scope i
  modify fun s => { s with scopes := s.scopes.modify i f }

/-- Takes the innermost scope off the stack; the one around is left early where this one is. -/
def closeScope (i : ScopeId) : InjectM Scope := do
  let sc ← scope i
  let s ← get
  if i + 1 ≠ s.scopes.length then throw (.scopeOrder i s.scopes.length)
  set { s with scopes := s.scopes.dropLast }
  match sc.parent with
  | some p => if sc.leftEarly then modifyScope p fun sc => { sc with leftEarly := true }
  | none => pure ()
  return sc

def markLeftEarly (i : ScopeId) : InjectM Unit :=
  modifyScope i fun sc => { sc with leftEarly := true }

def addFinal (i : ScopeId) (n : Node) : InjectM Unit := do
  if n.isKind .empty then return
  modifyScope i fun sc => { sc with finals := sc.finals ++ [n] }

def newTemp (i : ScopeId) (type : TypeId) (span : Span) : InjectM SymRef := do
  let tmp ← newSymbol .temp (← tempName ":tmpD") type span
  modifyScope i fun sc => { sc with vars := sc.vars ++ [tmp] }
  return tmp

/-! ## Reports -/

def report (severity : Severity) (code : DiagCode) (at_ : Span) (message : Text)
    (notes : List DiagNote) : InjectM Unit := do
  let some owner ← owner | throw (.fault .absent)
  let primary := at_.orElse ((← symbols).get owner).span
  modify fun s =>
    { s with reports := s.reports ++ [{ severity, code, message, primary, notes }] }

def trace (scope : TraceScope) (name detail : Text) : InjectM Unit := do
  let parent := (← read).span
  modify fun s => { s with trace := s.trace.point scope name parent detail }

def reportError (code : DiagCode) (at_ : Span) (message : Text) (notes : List DiagNote) :
    InjectM Unit := do
  modify fun s => { s with failed := true }
  report .error code at_ message notes
  trace .routine "error" code.id

def decision (name : Text) (n : Node) : InjectM Unit := do
  if (← get).trace.level.admits .node then
    trace .node name (← (← printer).expr n)

def routineName : InjectM Text := return (← read).routine.name (← symbols)

end InjectM

end Lifecycle
