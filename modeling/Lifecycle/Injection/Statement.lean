import Lifecycle.Injection.Nested

/-!
# Statements

Declarations, assignments, `return` and `raise`, and the choice between a move and a copy when a
value is stored (`storeStep`).
-/

namespace Lifecycle

namespace Node

/-- Goes up the path of a location to a part that equals `value`: whether there is one, and the
last field passed on the way. A cursor field owns nothing and ends the search. -/
def ownerOnPath (ss : Symbols) (value : Node) (field : Option Node) :
    Node → Except Fault (Option (Option Node))
  | .hole => .error .absent
  | .node h ks =>
    match h.kind, ks with
    | .dot, k :: f :: _ => do
      if ss.has (← f.info).sym .cursor then return none
      if k.structEq value then return some (some f)
      ownerOnPath ss value (some f) k
    | .index, k :: _ | .deref, k :: _ =>
      if k.structEq value then .ok (some field) else ownerOnPath ss value field k
    | .dot, _ | .index, [] | .deref, [] => .error .absent
    | _, _ => .ok none

end Node

namespace InjectM

def checkCycle (n : Node) : InjectM Unit := do
  if !(← read).options.cycleWarnings then return
  let types := (← read).types
  let value ← n.kid 1
  let h ← value.info
  let value ← if h.kind = .closure then value.kid 1 else pure value
  if (← value.info).kind = .nilLit then return
  let dest ← n.kid 0
  let type := (← dest.info).type
  if types.shapeOf type ≠ .ref && types.shapeOf type ≠ .closure then return
  if !(← types.isCyclic type) then return
  match ← Node.ownerOnPath (← symbols) value none dest with
  | none => return
  | some field =>
    let msg := "'" ++ (← (← printer).expr n) ++ "' creates an uncollectable ref cycle"
    let advice ← match field with
      | none => pure ("" : Text)
      | some f => do
        let s ← Node.symbolOf (← symbols) (← f.info)
        pure ("; annotate '" ++ s.name ++ "' with .cursor")
    report .warning .cycleCreated (← n.info).span (msg ++ advice) []

/-- Changes the tag of a variant through a temporary, and destroys the old arm if the tag really
changes. An object with a declared destructor cannot have just an arm destroyed. -/
def storeTag (r : Rules) (n : Node) (s : ScopeId) : InjectM Node := do
  let dest ← n.kid 0
  let src ← n.kid 1
  let span := (← n.info).span
  let types := (← read).types
  let tmp ← symNode (← newTemp s (← src.info).type span) span
  let saved ← fastAsgn tmp (← r.eval src s .consumed)
  let le ← r.eval dest s .normal
  let obj ← le.kid 0
  let type := (← obj.info).type
  let guard ← if ← isOwning type then
      if (← get).ops.isUserDefined types type .destroy then do
        reportError .discriminantDestructor span
          ("assignment to discriminant '" ++ (← (← printer).expr dest) ++ "' for objects with a " ++
            "user defined destructor is not supported, " ++
            "the object must have the default destructor; factor the part that needs the custom " ++
            "destructor out into a separate object; routine: " ++ (← routineName)) []
        pure []
      else do
        match ← ops (OpM.branchDestroy types type) with
        | .error e => do
          reportOp e type .destroy n none
          pure []
        | .ok none => throw (.fault .absent)
        | .ok (some op) => do
          let bool := types.builtins.bool
          let same ← magic .eq bool span [← copy le, ← copy tmp]
          let changed ← magic .not bool span [same]
          let destroyed ← call op 0 span [← copy obj]
          pure [← tree .ifStmt 0 [← tree .elifBranch 0 [changed, destroyed]]]
    else pure []
  stmts span (saved :: guard ++ [← fastAsgn le (← copy tmp)])

def assign (r : Rules) (n : Node) (s : ScopeId) : InjectM Node := do
  let dest ← n.kid 0
  let src ← n.kid 1
  let h ← dest.info
  let owning ← if ← isOwning h.type then do pure !(← isCursor dest) else pure false
  if owning then
    if h.kind = .dot then checkCycle n
    return ← r.store (← r.eval dest s .normal) src s false
  if ← dest.isDiscriminantField (← symbols) then return ← storeTag r n s
  let dest ← r.eval dest s .normal
  withKids n [dest, ← r.eval src s .consumed]

/-- Declares a variable at the start of the scope and schedules its destroy. Globals of the
outermost scope are destroyed with the unit, storage of a thread never. -/
def declare (v : Node) (sym : SymRef) (i : ScopeId) : InjectM Unit := do
  modifyScope i fun sc => { sc with vars := sc.vars ++ [sym] }
  modify fun s => { s with declared := s.declared.insert sym i }
  let symbol := (← symbols).get sym
  if symbol.has .threadVar then return
  if symbol.kind = .global && (← scope i).parent.isNone then
    let d ← destroy v
    if !d.isKind .empty then modify fun s => { s with globals := s.globals ++ [d] }
  else addFinal i (← destroy v)

/-- A variable without a value gets an explicit default when it may be read before it is written, or
when it owns something and is declared anew in each round of a loop. -/
def needsDefault (sym : SymRef) : InjectM Bool := do
  let ss ← symbols
  if ← isInLoopBody then
    if ← isOwning (ss.get sym).type then return true
  return (← get).oracle.mayBeUninit ss sym

def declaration (r : Rules) (s : ScopeId) (it : Node) : InjectM (List Node) := do
  let v ← it.kid 0
  let init ← it.kid 1
  let h ← v.info
  let ss ← symbols
  if ss.has h.sym .compileTime then return [← tree .varSection 0 [it]]
  let absent := (← init.info).kind = .empty
  let sym ← orAbsent h.sym
  let symbol := ss.get sym
  let init ← if absent && !symbol.has .noInit then do
      if ← needsDefault sym then defaultValue symbol.type h.span else pure init
    else pure init
  let absent := init.isKind .empty
  if !(← isOwning symbol.type) || symbol.has .cursor then
    let init ← if absent then pure init else r.eval init s .normal
    return [← tree .varSection 0 [← withKids it [v, init]]]
  declare v sym s
  if absent then return [] else return [← r.store v init s true]

def declareAll (r : Rules) (n : Node) (s : ScopeId) : InjectM Node := do
  let h ← n.info
  let parts ← n.kids.mapM (declaration r s)
  match parts.flatten with
  | [one] => return one
  | kids => stmts h.span kids

def leave (r : Rules) (n : Node) (s : ScopeId) : InjectM Node := do
  markLeftEarly s
  let v ← n.kid 0
  let h ← v.info
  if h.kind = .empty then return n
  match (← read).routine.result with
  | some res =>
    let span := (← n.info).span
    let asgn ← tree .asgn 0 [← symNode res h.span, v]
    let ret ← node { kind := .returnStmt, span } [← emptyAt span]
    stmts span [← assign r asgn s, ret]
  | none => withKids n [← r.eval v s .sinkArg]

/-- Gives an exception its own copy of a raised location. Where the routine owns the location it is
reset, so that leaving does not destroy the value twice. -/
def raise (r : Rules) (n : Node) (s : ScopeId) : InjectM Node := do
  markLeftEarly s
  let v ← n.kid 0
  let h ← v.info
  if h.kind = .empty then return n
  let given ← if h.kind = .call || v.isConstructor then pure true else do pure !(← isOwning h.type)
  if given then return ← withKids n [← r.eval v s .consumed]
  let span := (← n.info).span
  let tmp ← symNode (← newTemp s h.type h.span) h.span
  let cleared ← reset tmp
  let copied ← copyInto tmp (← r.eval v s .normal) v
  let source ← if h.kind = .stmtListExpr then v.lastKid else pure v
  let sh ← source.info
  let disarmed ← if sh.kind = .sym && (← ownsStorage sh.sym) then do pure [← reset source]
    else pure []
  let raised ← node { kind := .raiseStmt, span } [← copy tmp]
  stmts span ([cleared, copied] ++ disarmed ++ [raised])

def declScope (sym : Option SymRef) (s : ScopeId) : InjectM ScopeId := do
  let st ← get
  match sym.bind st.declared.get? with
  | some d => return if d < st.scopes.length then d else s
  | none => return s

def canMoveName (ri : Node) (h : Head) (type : TypeId) : InjectM Bool := do
  let s ← Node.symbolOf (← symbols) h
  if s.kind = .param || !s.isLocal (← owner) then return false
  if ← isCursor ri then return false
  if ← isLastRead ri then canMove type else return false

def canMovePart (dest ri : Node) (type : TypeId) : InjectM Bool := do
  if !(← isOwnPlace ri) then return false
  if ← isCursor ri then return false
  if !(← isLastRead ri) then return false
  if (← dest.aliases ri) ≠ .no then return false
  canMove type

/-- Stores `ri` in `dest`: a produced value or the last read of a movable location is moved,
anything else is copied. A construct with several values stores each where it arises. -/
def storeStep (r : Rules) (dest ri : Node) (s : ScopeId) (decl : Bool) : InjectM Node := do
  modify fun st => { st with otherRead := none }
  if ← dest.sameLocation ri then
    decision "self" ri
    return ← emptyAt (← ri.info).span
  let h ← ri.info
  let type := (← dest.info).type
  let copied : InjectM Node := do copyInto dest (← r.eval ri s .consumed) ri
  let sunk (m : Mode) : InjectM Node := do sink dest (← r.eval ri s m) decl
  match h.kind with
  | .call | .objConstr | .tupleConstr | .closure | .intLit | .strLit | .boolLit | .nilLit =>
    sunk .consumed
  | .arrayConstr =>
    if !ri.kids.isEmpty && (← read).types.isConstSeq h.type then copied else sunk .consumed
  | .sym => do
    if ← isSinkParam ri then
      if ← isLastRead ri then return ← sinkAndReset dest ri decl
    if ← canMoveName ri h type then sinkAndReset dest ri decl else copied
  | .index | .dot => do
    if h.kind = .index then
      let container ← ri.kid 0
      if ← isUnpackedTuple container then
        addReset (← declScope (← container.info).sym s) container
        return ← sunk .consumed
    if ← canMovePart dest ri type then sinkAndReset dest ri decl else copied
  | .conv | .upConv | .downConv | .cast => sunk .sinkArg
  | .stmtListExpr | .block | .ifStmt | .caseStmt | .tryStmt => nested r (.store dest decl) ri s
  | .raiseStmt => raise r ri s
  | _ => do
    if ← isOwnPlace ri then
      if ← isLastRead ri then
        if ← canMove type then return ← sinkAndReset dest ri decl
    copied

def evalStep (r : Rules) (n : Node) (s : ScopeId) (m : Mode) : InjectM Node := do
  let h ← n.info
  match h.kind with
  | .stmtList | .stmtListExpr | .block | .ifStmt | .caseStmt | .whileStmt | .tryStmt =>
    nested r (.value m) n s
  | kind =>
    if m = .sinkArg then return ← sinkArg r n s
    match kind with
    | .empty | .sym | .intLit | .strLit | .boolLit | .nilLit => return n
    | .arrayConstr | .tupleConstr | .closure => construct r n s m
    | .objConstr => constructObject r n s m
    | .call => evalCall r n s m
    | .discardStmt => evalOperand r n s .normal
    | .varSection => declareAll r n s
    | .asgn | .fastAsgn => assign r n s
    | .raiseStmt => raise r n s
    | .breakStmt => do
      markLeftEarly s
      return n
    | .returnStmt => leave r n s
    | .dot => do
      if ← n.isPurePlace then return n
      let obj ← r.eval (← n.kid 0) s .normal
      withKids n [obj, ← n.kid 1]
    | .index | .deref | .addr | .conv | .upConv | .downConv | .cast => do
      if ← n.isPurePlace then return n
      evalKids r n s .normal
    | _ => throw (.noRule h)

def rules : Nat → Rules
  | 0 => ⟨fun _ _ _ => throw (.fault .endless), fun _ _ _ _ => throw (.fault .endless)⟩
  | n + 1 => ⟨evalStep (rules n), storeStep (rules n)⟩

/-- How deep rules nest on a tree: a store is an evaluation of the same node, which for a sink
parameter is another one. -/
def ruleDepth (n : Node) : Nat := 4 * n.depth + 8

end InjectM

end Lifecycle
