import Lifecycle.Injection.Basic

/-!
# Which values can be moved

A value can be moved out of a location that the routine owns, at the last read of it. The tests
here look at the shape of an expression and at the flags of its symbols.
-/

namespace Lifecycle

namespace Node

def staysWithin : NodeKind → Bool
  | .dot | .index | .conv | .upConv | .downConv => true
  | _ => false

def isOwnPlace (ss : Symbols) (routine : Option SymRef) : Node → Except Fault Bool
  | .hole => .error .absent
  | .node h ks =>
    if staysWithin h.kind then
      match ks with
      | [] => .error .absent
      | k :: _ => k.isOwnPlace ss routine
    else if h.kind ≠ .sym then .ok false
    else
      match h.sym with
      | none => .error .absent
      | some r =>
        let s := ss.get r
        if s.owner ≠ routine || s.has .threadVar || s.has .cursor then .ok false
        else
          match s.kind with
          | .varLocal | .letLocal | .temp | .result => .ok true
          | .param => .ok (s.has .sink)
          | _ => .ok false

def symbolOf (ss : Symbols) (h : Head) : Except Fault Symbol := return ss.get (← orAbsent h.sym)

def isSinkParam (ss : Symbols) (n : Node) : Except Fault Bool := do
  let h ← n.info
  if h.kind ≠ .sym then return false
  let s ← symbolOf ss h
  return s.kind = .param && s.has .sink

def isCursor (ss : Symbols) : Node → Except Fault Bool
  | .hole => .error .absent
  | .node h ks =>
    match h.kind, ks with
    | .sym, _ => .ok (ss.has h.sym .cursor)
    | .dot, _ :: f :: _ => f.isCursor ss
    | .dot, _ => .error .absent
    | _, _ => .ok false

def endSymbol (n : Node) : Except Fault (Option SymRef) := do
  let h ← n.info
  match h.kind with
  | .sym => return h.sym
  | .dot => return (← (← n.kid 1).info).sym
  | _ => return none

def isNoInit (ss : Symbols) (n : Node) : Except Fault Bool :=
  return ss.has (← n.endSymbol) .noInit

def isDiscriminantField (ss : Symbols) (n : Node) : Except Fault Bool := do
  if (← n.info).kind ≠ .dot then return false
  return ss.has (← n.endSymbol) .discriminant

def isLValue (ss : Symbols) : Node → Except Fault Bool
  | .hole => .error .absent
  | .node h ks =>
    match h.kind, ks with
    | .sym, _ => do
      let s ← symbolOf ss h
      return s.kind.isStorage || s.kind = .global
    | .deref, _ => .ok true
    | k, [] => if staysWithin k then .error .absent else .ok false
    | k, x :: _ => if staysWithin k then x.isLValue ss else .ok false

def isConstructor : Node → Bool
  | .hole => false
  | .node h _ =>
    match h.kind with
    | .arrayConstr | .objConstr | .tupleConstr | .closure => true
    | _ => false

mutual

/-- Whether a constant sequence is part of a constructed value. It must not be taken over. -/
def holdsConstSeq (types : TypeTable) : Node → Except Fault Bool
  | .hole => .error .absent
  | .node h ks =>
    if h.kind = .arrayConstr && !ks.isEmpty && types.isConstSeq h.type then .ok true
    else
      match h.kind with
      | .fieldInit | .conv | .cast => lastHoldsConstSeq types ks
      | .objConstr | .arrayConstr | .tupleConstr => anyHoldsConstSeq types ks
      | .closure =>
        match ks with
        | _ :: env :: _ => env.holdsConstSeq types
        | _ => .error .absent
      | _ => .ok false

def anyHoldsConstSeq (types : TypeTable) : List Node → Except Fault Bool
  | [] => .ok false
  | k :: ks => do if ← k.holdsConstSeq types then return true else anyHoldsConstSeq types ks

def lastHoldsConstSeq (types : TypeTable) : List Node → Except Fault Bool
  | [] => .error .absent
  | k :: ks => if ks.isEmpty then k.holdsConstSeq types else lastHoldsConstSeq types ks

end

/-- A location whose evaluation does nothing else: fields, pointees, and elements at a literal or a
variable. It is handed on as it stands. -/
def isPurePlace : Node → Except Fault Bool
  | .hole => .error .absent
  | .node h ks =>
    match h.kind, ks with
    | .sym, _ => .ok true
    | .dot, k :: _ | .deref, k :: _ | .conv, k :: _ | .upConv, k :: _ | .downConv, k :: _
    | .addr, k :: _ => k.isPurePlace
    | .dot, [] | .deref, [] | .conv, [] | .upConv, [] | .downConv, [] | .addr, [] => .error .absent
    | .index, k :: i :: _ => do
      let i ← i.info
      if i.kind = .sym || i.kind = .intLit then k.isPurePlace else return false
    | .index, _ => .error .absent
    | _, _ => .ok false

end Node

namespace InjectM

def isUnpackedTuple (n : Node) : InjectM Bool := do
  let h ← n.info
  if h.kind ≠ .sym then return false
  let s ← Node.symbolOf (← symbols) h
  return s.kind = .temp && (← shapeOf h.type) = .tuple

def isOwnPlace (n : Node) : InjectM Bool := do n.isOwnPlace (← symbols) (← owner)

def isCursor (n : Node) : InjectM Bool := do n.isCursor (← symbols)

def isSinkParam (n : Node) : InjectM Bool := do n.isSinkParam (← symbols)

def ownsStorage (r : Option SymRef) : InjectM Bool := do
  let ss ← symbols
  match r with
  | none => return false
  | some r =>
    let s := ss.get r
    return s.isLocal (← owner) && !s.has .cursor && (s.kind ≠ .param || s.has .sink)

def isFirstWrite (n : Node) : InjectM Bool := do (← get).oracle.isFirstWrite n

/-- Whether this is the last read of the location. Values that nobody destroys and temporaries with
one use need not be looked up. -/
def isLastRead (n : Node) : InjectM Bool := do
  modify fun s => { s with otherRead := none }
  if !(← isOwning (← n.info).type) then return true
  let m ← (← n.skipConv).info
  if m.kind = .sym && (← symbols).has m.sym .singleUsedTemp then return true
  let (last, oracle) ← (← get).oracle.isLastRead n
  modify fun s => { s with oracle, otherRead := if last then none else oracle.otherRead }
  return last

def canMove (type : TypeId) : InjectM Bool := do ops (OpM.canMove (← read).types type)

def isInLoopBody : InjectM Bool := do
  let s ← get
  return s.conditions < s.loops

end InjectM

end Lifecycle
