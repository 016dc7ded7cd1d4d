import Lifecycle.Tree.Node

/-!
# Locations

Expressions that denote storage: a symbol, or a field, an element or the pointee of a location.
-/

namespace Lifecycle

namespace Node

def skipConv : Node → Except Fault Node
  | .hole => .ok .hole
  | .node h (k :: ks) => if h.kind.keepsLocation then k.skipConv else .ok (.node h (k :: ks))
  | .node h [] => if h.kind.keepsLocation then .error .absent else .ok (.node h [])

def stepsInto : NodeKind → Bool
  | .dot | .index | .deref | .addr | .conv | .upConv | .downConv | .cast => true
  | _ => false

def root? : Node → Except Fault (Option SymRef)
  | .hole => .ok none
  | .node h (k :: _) =>
    if h.kind = .sym then .ok h.sym
    else if stepsInto h.kind then k.root?
    else .ok none
  | .node h [] =>
    if h.kind = .sym then .ok h.sym
    else if stepsInto h.kind then .error .absent
    else .ok none

def isEndPoint : NodeKind → Bool
  | .sym | .dot | .index => true
  | _ => false

def isTransparent : NodeKind → Bool
  | .addr | .deref | .upConv | .downConv | .conv => true
  | _ => false

def endPoint? : Node → Except Fault (Option Node)
  | .hole => .error .absent
  | .node h (k :: ks) =>
    if isEndPoint h.kind then .ok (some (.node h (k :: ks)))
    else if isTransparent h.kind then k.endPoint?
    else .ok none
  | .node h [] =>
    if isEndPoint h.kind then .ok (some (.node h []))
    else if isTransparent h.kind then .error .absent
    else .ok none

def sameConstant (a b : Node) : Except Fault Bool := do
  let ha ← a.info
  if ha.kind ≠ .intLit then return false
  let hb ← b.info
  return hb.kind = .intLit && ha.int = hb.int

def sameWithin : Nat → Node → Node → Except Fault Bool
  | 0, _, _ => .error .endless
  | n + 1, a, b => do
    let some a ← a.endPoint? | return false
    let some b ← b.endPoint? | return false
    let ha ← a.info
    let hb ← b.info
    if ha.kind ≠ hb.kind then return false
    match ha.kind with
    | .sym => return ha.sym = hb.sym
    | .dot =>
      if ← sameWithin n (← a.kid 0) (← b.kid 0) then
        return (← (← a.kid 1).info).sym = (← (← b.kid 1).info).sym
      else return false
    | _ =>
      if ← sameWithin n (← a.kid 0) (← b.kid 0) then sameConstant (← a.kid 1) (← b.kid 1)
      else return false

def sameLocation (a b : Node) : Except Fault Bool := sameWithin a.depth a b

end Node

end Lifecycle
