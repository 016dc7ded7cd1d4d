import Lifecycle.Injection.Classify

/-!
# Lifecycle operations as calls

The calls that move, copy, reset and destroy, and the reports about operators that a type lacks.
-/

namespace Lifecycle

namespace InjectM

def magic (m : Magic) (type : TypeId) (span : Span) (args : List Node) : InjectM Node := do
  call (← ops (OpM.magic m)) type span args

def reset (n : Node) : InjectM Node := do
  let h ← n.info
  magic .wasMoved 0 h.span [← copy (← n.skipConv)]

def defaultValue (type : TypeId) (span : Span) : InjectM Node := magic .default type span []

def opFailure (e : OpError) (type : Text) (kind : OpKind) : DiagCode × Text :=
  match e.reason with
  | .unavailable =>
    (.opUnavailable, "'" ++ kind.text ++ "' is not available for type <" ++ type ++ ">")
  | .generic => (.opGeneric, "'" ++ kind.text ++ "' operator is generic for type <" ++ type ++ ">")
  | .missing | .trivial =>
    (.opMissing, "'" ++ kind.text ++ "' operator not found for type <" ++ type ++ ">")

/-- What explains that `src` cannot be moved: another read, or a parameter that is not taken
over. -/
def copyNotes (src : Node) : InjectM (List DiagNote) := do
  match (← get).otherRead with
  | some r => return [⟨r.span, "another read is done here"⟩]
  | none =>
    let h ← src.info
    if h.kind ≠ .sym then return []
    let s ← Node.symbolOf (← symbols) h
    if s.kind = .param && !s.has .sink then
      return [⟨s.span, "try to make " ++ s.name ++ " a 'sink' parameter"⟩]
    return []

def reportOp (e : OpError) (type : TypeId) (kind : OpKind) (at_ : Node) (src : Option Node) :
    InjectM Unit := do
  let (code, msg) := opFailure e (← (← read).types.text type) kind
  let (msg, notes) ← match kind, src with
    | .copy, some src => do
      let text ← (← printer).expr src
      pure (msg ++ "; requires a copy because it's not the last read of '" ++ text ++ "'",
        ← copyNotes src)
    | _, _ => pure (msg, [])
  reportError code (← at_.info).span (msg ++ "; routine: " ++ (← routineName)) notes

def resolve (type : TypeId) (kind : OpKind) : InjectM OpResult := do
  ops (OpM.resolve (← read).types type kind)

def opCall? (kind : OpKind) (dest : Node) (args : List Node) : InjectM (Option Node) := do
  let h ← dest.info
  match ← resolve h.type kind with
  | .ok none => return none
  | .ok (some op) => return some (← call op 0 h.span ((← copy dest) :: args))
  | .error e =>
    if e.reason ≠ .trivial then reportOp e h.type kind dest none
    return none

def destroy (dest : Node) : InjectM Node := do
  match ← opCall? .destroy dest [] with
  | some n => return n
  | none => emptyAt (← dest.info).span

def isFresh (dest : Node) (decl : Bool) : InjectM Bool := do
  if decl then return true
  if ← isUnpackedTuple dest then return true
  if ← isOwnPlace dest then isFirstWrite dest else return false

/-- Whether plain storing into `dest` is enough. In the condition of a loop nothing counts as
fresh. -/
def storesPlainly (dest : Node) (decl : Bool) : InjectM Bool := do
  let fresh ← isFresh dest decl
  if (← get).conditions = 0 && fresh then return true else dest.isNoInit (← symbols)

def ownSink? (dest ri : Node) : InjectM (Option Node) := do
  let h ← dest.info
  if (← get).ops.isUserDefined (← read).types h.type .sink then opCall? .sink dest [ri]
  else return none

/-- Moves `ri` into `dest`. Where `dest` holds no value, plain storing is enough; else the old value
is destroyed first, or the declared sink operator does both. -/
def sink (dest ri : Node) (decl : Bool) : InjectM Node := do
  if ← storesPlainly dest decl then
    decision "fastAsgn" dest
    return ← fastAsgn dest ri
  match ← ownSink? dest ri with
  | some n => do
    decision "sink" dest
    return n
  | none => do
    decision "destroy+fastAsgn" dest
    let old ← destroy dest
    stmts (← dest.info).span [old, ← fastAsgn dest ri]

def copyInto (dest src ri : Node) : InjectM Node := do
  decision "copy" ri
  let h ← dest.info
  match ← resolve h.type .copy with
  | .ok (some op) => call op 0 h.span [← copy dest, src]
  | .ok none => throw (.fault .absent)
  | .error e =>
    if e.reason ≠ .trivial then reportOp e h.type .copy ri (some ri)
    tree .asgn 0 [dest, src]

def sinkAndReset (dest ri : Node) (decl : Bool) : InjectM Node := do
  let moved ← sink dest ri decl
  stmts (← ri.info).span [moved, ← reset ri]

def keepUntilEnd (arg : Node) (s : ScopeId) : InjectM Node := do
  let h ← arg.info
  if !(← isOwning h.type) then return arg
  let tmp ← symNode (← newTemp s h.type h.span) h.span
  let stored ← sink tmp arg true
  let out ← node { kind := .stmtListExpr, span := h.span, type := h.type } [stored, tmp]
  addFinal s (← destroy tmp)
  return out

def moveOut (n : Node) : InjectM Node := do
  let h ← n.info
  if !(← isOwning h.type) then return n
  decision "move" n
  let blit ← newSymbol .letLocal (← tempName "blitTmp") h.type h.span
  let defs ← tree .identDefs 0 [← symNode blit h.span, n]
  let section_ ← tree .varSection 0 [defs]
  let cleared ← reset n
  node { kind := .stmtListExpr, span := h.span, type := h.type }
    [section_, cleared, ← symNode blit h.span]

def addReset (i : ScopeId) (n : Node) : InjectM Unit := do
  let sc ← scope i
  let known ← sc.resets.anyM fun w => do
    Node.sameLocation (← w.kid 1) n
  if known then return
  let marker ← reset n
  modifyScope i fun sc => { sc with resets := sc.resets ++ [marker] }

/-! ## Closing a scope -/

def declarations (vars : List SymRef) (span : Span) : InjectM Node := do
  node { kind := .varSection, span } (← vars.mapM fun v => do
    tree .identDefs 0 [← symNode v span, ← emptyAt span])

def cleanup (sc : Scope) (span : Span) : InjectM Node := stmts span (sc.resets ++ sc.finals.reverse)

def tryFinally (body fin : Node) (type : TypeId) : InjectM Node := do
  let fin ← tree .finallyBranch 0 [fin]
  node { kind := .tryStmt, type, span := body.span } [body, fin]

/-- Closes the scope around a statement: declarations, the statement, the cleanup. Where the region
can be left early, the cleanup stands in a `finally`. -/
def closeAround (i : ScopeId) (ret : Node) : InjectM Node := do
  let sc ← closeScope i
  if sc.vars.isEmpty && sc.isIdle then return ret
  let span := ret.span
  let decls ← if sc.vars.isEmpty then pure [] else do pure [← declarations sc.vars span]
  let rest ← if sc.isIdle then pure [ret]
    else if sc.leftEarly then do pure [← tryFinally ret (← cleanup sc span) 0]
    else do pure [ret, ← cleanup sc span]
  stmts span (decls ++ rest)

end InjectM

end Lifecycle
