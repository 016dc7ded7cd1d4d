import Lifecycle.Operators.Table
import Lifecycle.Types.Naming
import Lifecycle.Types.Reach

/-!
# Finding operators

`resolve` finds the operator that performs an operation on a type. A disabled operation is refused;
then a declared operator counts; a generic one, or none, leaves it to the type that stands in for
this one; finally the operator is made up, once, from those of the parts.

`needsLifecycle` says whether values of a type have to be destroyed at all.
-/

namespace Lifecycle

inductive OpReason where
  | missing
  | generic
  | unavailable
  | trivial
deriving DecidableEq

def OpReason.text : OpReason → Text
  | .missing => "operator not found"
  | .generic => "operator is generic"
  | .unavailable => "operator is not available"
  | .trivial => "type has no lifecycle operators"

inductive OpError where
  | own (op : OpKind) (type : TypeId) (name : Text) (reason : OpReason)
  | part (op : OpKind) (type : TypeId) (name : Text) (inner : OpError)

namespace OpError

def reason : OpError → OpReason
  | .own _ _ _ r => r
  | .part _ _ _ inner => inner.reason

def op : OpError → OpKind
  | .own k _ _ _ | .part k _ _ _ => k

def type : OpError → TypeId
  | .own _ t _ _ | .part _ t _ _ => t

def message : OpError → Text
  | .own op _ name r => "'" ++ op.text ++ "' for type <" ++ name ++ ">: " ++ r.text
  | .part op _ name inner => "'" ++ op.text ++ "' for type <" ++ name ++ ">: " ++ inner.message

end OpError

/-- What a search finds: an operator, nothing yet (the type is being worked on further out), or the
reason why there is none. -/
abbrev OpResult := Except OpError (Option SymRef)

namespace OpM

/-- The types whose operators a made-up operator calls. References and closures have none: their
operators only count. -/
def parts (types : TypeTable) (type : TypeId) : OpM (List TypeId) :=
  match types.lookup type with
  | some d => if d.kind = .seq then pure [d.elem] else lift (types.components type)
  | none => pure []

def tryParts (visit : TypeId → List TypeId → OpM (Bool × List TypeId)) :
    List TypeId → List TypeId → OpM (Bool × List TypeId)
  | [], seen => pure (false, seen)
  | t :: ts, seen => do
    let (found, seen) ← visit t seen
    if found then return (true, seen) else tryParts visit ts seen

def needsWithin (types : TypeTable) : Nat → TypeId → List TypeId → OpM (Bool × List TypeId)
  | 0, _, seen => pure (false, seen)
  | n + 1, type, seen => do
    let s ← get
    match s.table.lifetime.get? type with
    | some v => return (v, seen)
    | none =>
      if seen.contains type then return (false, seen)
      let seen := type :: seen
      let (v, seen) ← if s.table.hasUser type || types.ownsHeap type then pure (true, seen)
        else do tryParts (needsWithin types n) (← parts types type) seen
      modify fun s =>
        { s with table := { s.table with lifetime := s.table.lifetime.insert type v } }
      return (v, seen)

def needsLifecycle (types : TypeTable) (type : TypeId) : OpM Bool :=
  return (← needsWithin types (types.size + 2) type []).1

def fail (types : TypeTable) (type : TypeId) (kind : OpKind) (r : OpReason) : OpM OpResult :=
  return .error (.own kind type (← lift (types.text type)) r)

def resolveParts (types : TypeTable) (kind : OpKind)
    (visit : TypeId → List OpKey → OpM (OpResult × List OpKey)) :
    List TypeId → List OpKey → OpM (Option OpError × List OpKey)
  | [], visiting => pure (none, visiting)
  | t :: ts, visiting => do
    if ← needsLifecycle types t then
      let (r, visiting) ← visit t visiting
      match r with
      | .error e =>
        if e.reason = .trivial then resolveParts types kind visit ts visiting
        else return (some e, visiting)
      | .ok _ => resolveParts types kind visit ts visiting
    else resolveParts types kind visit ts visiting

/-- The operator that is made up of those of the parts, unless it was made before or is in the
making. -/
def compose (types : TypeTable) (kind : OpKind)
    (visit : TypeId → List OpKey → OpM (OpResult × List OpKey)) (type : TypeId)
    (visiting : List OpKey) : OpM (OpResult × List OpKey) := do
  let key := (type, kind)
  match (← get).table.synth.get? key with
  | some op => return (.ok (some op), visiting)
  | none =>
    if visiting.contains key then return (.ok none, visiting)
    let (failed, visiting) ←
      resolveParts types kind visit (← parts types type) (key :: visiting)
    match failed with
    | some e => return (.error (.part kind type (← lift (types.text type)) e), visiting)
    | none =>
      let op ← newRoutine kind.text .none
      modify fun s => { s with table := { s.table with synth := s.table.synth.insert key op } }
      return (.ok (some op), visiting)

def resolveWithin (types : TypeTable) (kind : OpKind) :
    Nat → TypeId → List OpKey → OpM (OpResult × List OpKey)
  | 0, _, visiting => pure (.ok none, visiting)
  | n + 1, type, visiting => do
    let key := (type, kind)
    let s ← get
    if (types.lookup type).isNone then return (← fail types type kind .missing, visiting)
    if s.table.disabled.contains key then
      return (← fail types type kind .unavailable, visiting)
    let canon := types.canonical type
    match s.table.user.get? key with
    | some op =>
      if !(s.symbols.get op).has .genericOp then return (.ok (some op), visiting)
      if canon ≠ type then
        let (r, visiting) ← resolveWithin types kind n canon visiting
        match r with
        | .ok op => return (.ok op, visiting)
        | .error _ => return (← fail types type kind .generic, visiting)
      return (← fail types type kind .generic, visiting)
    | none =>
      if canon ≠ type then return ← resolveWithin types kind n canon visiting
      if !(← needsLifecycle types type) then return (← fail types type kind .trivial, visiting)
      if ← lift (types.containsGenericParam type) then
        return (← fail types type kind .generic, visiting)
      compose types kind (resolveWithin types kind n) type visiting

def resolve (types : TypeTable) (type : TypeId) (kind : OpKind) : OpM OpResult :=
  return (← resolveWithin types kind (2 * types.size + 4) type []).1

def canMove (types : TypeTable) (type : TypeId) : OpM Bool := do
  match ← resolve types type .sink with
  | .ok _ => return true
  | .error e => return e.reason ≠ .unavailable

def branchDestroy (types : TypeTable) (obj : TypeId) : OpM OpResult := do
  let obj := types.canonical obj
  match (types.object? obj).bind (·.variant) with
  | none => fail types obj .destroy .missing
  | some _ =>
    match (← get).table.branch.get? obj with
    | some op => return .ok (some op)
    | none =>
      let op ← newRoutine "=destroyBranch" .none
      modify fun s => { s with table := { s.table with branch := s.table.branch.insert obj op } }
      return .ok (some op)

end OpM

end Lifecycle
