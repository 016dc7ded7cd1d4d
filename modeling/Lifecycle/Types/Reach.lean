import Lifecycle.Types.Table

/-!
# What a type is made of

`components` are the types whose values lie inside a value. The searches below follow components
and elements, visit each type once and so end on every table, recursive types included.
-/

namespace Lifecycle

namespace TypeTable

def skipWithin (t : TypeTable) (kinds : TypeKind → Bool) : Nat → TypeId → TypeId
  | 0, id => id
  | n + 1, id =>
    match t.lookup id with
    | some d => if kinds d.kind then t.skipWithin kinds n d.elem else id
    | none => id

/-- Follows elements while the kind is one of `kinds`. A longer way than the table has types would
repeat a type. -/
def skip (t : TypeTable) (kinds : TypeKind → Bool) (id : TypeId) : TypeId :=
  t.skipWithin kinds t.size id

def skipAbstract (t : TypeTable) (id : TypeId) : TypeId := t.skip TypeKind.isAbstract id

/-- The type whose operators stand in for `id`: instances collapse onto their body, distinct types
stay themselves. -/
def canonical (t : TypeTable) (id : TypeId) : TypeId := t.skip (· = .genericInst) id

def shapeOf (t : TypeTable) (id : TypeId) : TypeKind := t.kindOf (t.skipAbstract id)

def isEmpty (t : TypeTable) (id : TypeId) : Bool :=
  t.kindOf id = .invalid || t.kindOf id = .void

def isConstSeq (t : TypeTable) (id : TypeId) : Bool :=
  match t.lookup (t.skipAbstract id) with
  | some d => d.kind = .seq && d.flags.has .constSeq
  | none => false

def ownsHeap (t : TypeTable) (id : TypeId) : Bool := (t.kindOf id).ownsHeap

def components (t : TypeTable) (id : TypeId) : Except Fault (List TypeId) :=
  match t.lookup id with
  | none => .ok []
  | some d =>
    match d.kind with
    | .object => do
      let o ← orAbsent t.objects[d.payload.toNat]?
      return (o.fields.items.filter (!·.cursor)).map (·.type)
    | .tuple => do return (← orAbsent t.tuples[d.payload.toNat]?).items
    | .array | .distinct | .genericInst => .ok [d.elem]
    | _ => .ok []

abbrev Search := TypeId → List TypeId → Except Fault (Bool × List TypeId)

def tryEach (visit : Search) : List TypeId → List TypeId → Except Fault (Bool × List TypeId)
  | [], seen => .ok (false, seen)
  | id :: ids, seen => do
    let (found, seen) ← visit id seen
    if found then return (true, seen) else tryEach visit ids seen

def genericWithin (t : TypeTable) : Nat → Search
  | 0, _, seen => .ok (false, seen)
  | n + 1, id, seen =>
    if seen.contains id then .ok (false, seen)
    else
      let seen := id :: seen
      match t.lookup id with
      | none => .ok (false, seen)
      | some d =>
        match d.kind with
        | .genericParam => .ok (true, seen)
        | .seq | .ref | .ptr | .var | .openArray | .closure => t.genericWithin n d.elem seen
        | _ => do tryEach (t.genericWithin n) (← t.components id) seen

def containsGenericParam (t : TypeTable) (id : TypeId) : Except Fault Bool :=
  return (← t.genericWithin (t.size + 1) id []).1

def cycleWithin (t : TypeTable) : Nat → Search
  | 0, _, seen => .ok (false, seen)
  | n + 1, id, seen =>
    let id := t.skipAbstract id
    if seen.contains id then .ok (false, seen)
    else
      let seen := id :: seen
      match t.lookup id with
      | none => .ok (false, seen)
      | some d =>
        if d.flags.has .acyclic then .ok (false, seen)
        else
          match d.kind with
          | .ref | .closure => .ok (true, seen)
          | .seq => t.cycleWithin n d.elem seen
          | _ => do tryEach (t.cycleWithin n) (← t.components id) seen

/-- Whether values of the type can take part in a reference cycle. Only references and closures
can; a mark on the reference or on the object behind it rules the type out. -/
def isCyclic (t : TypeTable) (id : TypeId) : Except Fault Bool :=
  match t.lookup (t.skipAbstract id) with
  | none => .ok false
  | some d =>
    match d.kind with
    | .closure => .ok true
    | .ref =>
      if d.flags.has .acyclic then .ok false
      else return (← t.cycleWithin (t.size + 1) d.elem []).1
    | _ => .ok false

end TypeTable

end Lifecycle
