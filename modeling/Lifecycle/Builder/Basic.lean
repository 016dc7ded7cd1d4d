import Lifecycle.CompUnit.Run

/-!
# Building routines

A `Builder` holds the tables of a unit and makes symbols and nodes on increasing lines, so that
every node has a position of its own. Symbols that are made after `begin` belong to that routine.
-/

namespace Lifecycle

structure Builder where
  files : FileSet := .ofList ["test.dt"]
  types : TypeTable := .initial
  ops : OpState := {}
  sites : Nat := 1
  line : UInt32 := 0
  owner : Option SymRef := none
  params : List SymRef := []
  result : Option SymRef := none
  fields : Dict (TypeId × Text) SymRef := {}
  kept : Dict Text Node := {}
  made : List SymRef := []
  routines : List Routine := []

abbrev BuildM := EStateM Fault Builder

namespace BuildM

instance : MonadLift (Except Fault) BuildM where
  monadLift
    | .ok a => pure a
    | .error e => throw e

def span : BuildM Span := do
  modify fun b => { b with line := b.line + 1 }
  return ⟨0, (← get).line, 1⟩

def node (h : Head) (kids : List Node) : BuildM Node := do
  let b ← get
  set { b with sites := b.sites + 1 }
  return .node { h with site := b.sites } kids

/-! ## Symbols -/

def symbols : BuildM Symbols := return (← get).ops.symbols

def newSymbol (s : Symbol) : BuildM SymRef := do
  let b ← get
  let (r, symbols) := b.ops.symbols.fresh s
  set { b with ops := { b.ops with symbols } }
  return r

def declare (s : Symbol) : BuildM SymRef := do
  let r ← newSymbol { s with span := ← span }
  modify fun b => { b with made := b.made ++ [r] }
  return r

def begin (name : Text) : BuildM SymRef := do
  let r ← declare { kind := .proc, name }
  modify fun b => { b with owner := some r, params := [], result := none }
  return r

def param (name : Text) (type : TypeId) (sink : Bool) : BuildM SymRef := do
  let b ← get
  let flags : SymFlags := if sink then .sink else {}
  let r ← declare { kind := .param, name, owner := b.owner, type, flags
                    position := .ofNat b.params.length }
  modify fun b => { b with params := b.params ++ [r] }
  return r

def resultVar (type : TypeId) : BuildM SymRef := do
  let r ← declare { kind := .result, name := "result", owner := (← get).owner, type }
  modify fun b => { b with result := some r }
  return r

def localVar (name : Text) (type : TypeId) : BuildM SymRef := do
  declare { kind := .varLocal, name, owner := (← get).owner, type }

def globalVar (name : Text) (type : TypeId) : BuildM SymRef :=
  declare { kind := .global, name, type }

def label (name : Text) : BuildM SymRef := do
  declare { kind := .label, name, owner := (← get).owner }

def func (name : Text) (info : ProcInfo) : BuildM SymRef := do
  let b ← get
  let (type, types) := b.types.proc info
  if types.overrun then throw .noRoom
  set { b with types }
  declare { kind := .proc, name, type, flags := if info.raises then .canRaise else {} }

def field (obj : TypeId) (name : Text) : BuildM SymRef := do
  let b ← get
  if let some r := b.fields.get? (obj, name) then return r
  let some info := b.types.object? obj | throw .notAnObject
  match info.fields.items.findIdx? (·.name = name), info.fields.items.find? (·.name = name) with
  | some i, some f =>
    let cursor : SymFlags := if f.cursor then .cursor else {}
    let tag : Bool := match info.variant with
      | some v => v.discriminant = .ofNat i
      | none => false
    let flags := if tag then cursor.union .discriminant else cursor
    let r ← newSymbol { kind := .field, name, type := f.type, position := .ofNat i, flags }
    modify fun b => { b with fields := b.fields.insert (obj, name) r }
    return r
  | _, _ => throw (.unknownField name)

/-! ## Nodes -/

def symNode (s : Option SymRef) (span : Span) : BuildM Node := do
  let r ← orAbsent s
  let symbol := (← symbols).get r
  node { kind := .sym, sym := some r, type := symbol.type, span := span.orElse symbol.span } []

def sym (s : Option SymRef) : BuildM Node := do symNode s (← span)

def leaf (kind : NodeKind) (type : TypeId) : BuildM Node := do
  node { kind, type, span := ← span } []

def tree (kind : NodeKind) (type : TypeId) (kids : List Node) : BuildM Node := do
  node { kind, type, span := ← span } kids

def empty : BuildM Node := leaf .empty 0

def int (v : Int64) : BuildM Node := do
  node { kind := .intLit, type := (← get).types.builtins.int, span := ← span, int := v } []

def str (v : Text) : BuildM Node := do
  node { kind := .strLit, type := (← get).types.builtins.string, span := ← span, str := v } []

def bool (v : Bool) : BuildM Node := do
  node { kind := .boolLit, type := (← get).types.builtins.bool, span := ← span
         int := if v then 1 else 0 } []

def call (fn : Option SymRef) (args : List Node) : BuildM Node := do
  let f ← orAbsent fn
  let info ← (← get).types.procInfo? ((← symbols).get f).type
  let callee ← sym fn
  tree .call ((info.map (·.result)).getD 0) (callee :: args)

def magic (m : Magic) (type : TypeId) (args : List Node) : BuildM Node := do
  let b ← get
  match (OpM.magic m).run b.ops with
  | .error e ops =>
    set { b with ops }
    throw e
  | .ok f ops =>
    set { b with ops }
    let callee ← sym (some f)
    tree .call type (callee :: args)

def leadsToObject : TypeKind → Bool
  | .ref | .ptr | .var | .distinct | .genericInst => true
  | _ => false

def dot (x : Node) (name : Text) : BuildM Node := do
  let h ← x.info
  let f ← field ((← get).types.skip leadsToObject h.type) name
  let field ← sym (some f)
  tree .dot ((← symbols).get f).type [x, field]

def index (x i : Node) : BuildM Node := do
  let h ← x.info
  let types := (← get).types
  let d := (types.lookup (types.skip (fun k => k = .var || k = .distinct) h.type)).getD {}
  tree .index (if d.kind = .string then types.builtins.char else d.elem) [x, i]

def deref (x : Node) : BuildM Node := do
  let h ← x.info
  tree .deref (((← get).types.lookup h.type).getD {}).elem [x]

def orEmpty (n : Node) : BuildM Node := if n.isHole then empty else return n

def varDecl (s : Option SymRef) (init : Node) : BuildM Node := do
  let init ← orEmpty init
  let name ← sym s
  let defs ← tree .identDefs 0 [name, init]
  tree .varSection 0 [defs]

def stmts (ns : List Node) : BuildM Node := tree .stmtList 0 ns

def expr (ns : List Node) : BuildM Node := do
  let h ← (← orAbsent ns.getLast?).info
  tree .stmtListExpr h.type ns

def branch? (kind : NodeKind) (n : Node) : BuildM (List Node) := do
  if n.isHole then return [] else return [← tree kind 0 [n]]

def grow (n : Node) (more : List Node) : Node :=
  match n with
  | .hole => .hole
  | .node h ks => .node h (ks ++ more)

def ifStmt (cond then_ else_ : Node) : BuildM Node := do
  let first ← tree .elifBranch 0 [cond, then_]
  let n ← tree .ifStmt 0 [first]
  return grow n (← branch? .elseBranch else_)

def ifExpr (cond then_ else_ : Node) : BuildM Node := do
  let first ← tree .elifBranch 0 [cond, then_]
  let second ← tree .elseBranch 0 [else_]
  tree .ifStmt (← then_.info).type [first, second]

def caseStmt (sel : Node) (arms : List (Node × Node)) (else_ : Node) : BuildM Node := do
  let n ← tree .caseStmt 0 [sel]
  let arms ← arms.mapM fun (l, body) => tree .ofBranch 0 [l, body]
  return grow n (arms ++ (← branch? .elseBranch else_))

def whileStmt (cond : Node) (body : List Node) : BuildM Node := do
  let body ← stmts body
  tree .whileStmt 0 [cond, body]

/-- A label, or an empty node; a line is used for the empty node also when there is a label. -/
def labelNode (l : Option SymRef) : BuildM Node := do
  let none_ ← empty
  if l.isSome then sym l else return none_

def block (l : Option SymRef) (body : List Node) : BuildM Node := do
  let l ← labelNode l
  let body ← stmts body
  tree .block 0 [l, body]

def tryStmt (body handler last : Node) : BuildM Node := do
  let n ← tree .tryStmt 0 [body]
  let handler ← branch? .exceptBranch handler
  return grow n (handler ++ (← branch? .finallyBranch last))

def raise (x : Node) : BuildM Node := do
  let x ← orEmpty x
  tree .raiseStmt 0 [x]

def leave (x : Node) : BuildM Node := do
  let x ← orEmpty x
  tree .returnStmt 0 [x]

def break_ (l : Option SymRef) : BuildM Node := do
  let l ← labelNode l
  tree .breakStmt 0 [l]

def object (type : TypeId) (names : List Text) (values : List Node) : BuildM Node := do
  let obj := (← get).types.skip (· = .ref) type
  let n ← tree .objConstr type []
  let inits ← names.zipIdx.mapM fun (name, i) => do
    let f ← sym (some (← field obj name))
    tree .fieldInit 0 [f, ← orAbsent values[i]?]
  return grow n inits

def closure (type : TypeId) (fn : Option SymRef) (env : Node) : BuildM Node := do
  let f ← sym fn
  tree .closure type [f, env]

/-! ## Routines -/

def finish (body : List Node) : BuildM Routine := do
  let body ← stmts body
  let b ← get
  return { sym := b.owner, params := b.params.map some, result := b.result, body }

def keep (key : Text) (n : Node) : BuildM Unit :=
  modify fun b => { b with kept := b.kept.insert key n }

def addRoutine (r : Routine) : BuildM Unit :=
  modify fun b => { b with routines := b.routines ++ [r] }

def inject (i : Nat) (options : InjectOptions) : BuildM (Routine × Injected) := do
  let r ← orAbsent (← get).routines[i]?
  let b ← get
  let (res, sh) := r.inject { types := b.types, options } { ops := b.ops, sites := b.sites }
  set { b with ops := sh.ops, sites := sh.sites }
  return (r, ← res)

def unit (name : Text) : BuildM CompUnit := do
  let b ← get
  return { name, files := b.files, types := b.types, ops := b.ops, routines := b.routines
           sites := b.sites }

def adopt (u : CompUnit) : BuildM Unit :=
  modify fun b => { b with ops := u.ops, sites := u.sites }

end BuildM

end Lifecycle
