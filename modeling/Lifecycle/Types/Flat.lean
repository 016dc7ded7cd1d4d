import Lifecycle.Types.Naming

/-!
# The flat form of a type table

What a unit file holds of a table: the descriptors and the side tables. `TypeTable.ofFlat` checks
every element number and every slot, and that there is a number for each type, so that a damaged
file is refused here.
-/

namespace Lifecycle

structure FlatTypes where
  types : List TypeDesc := []
  objects : List ObjectInfo := []
  tuples : List (Listed TypeId) := []
  procs : List ProcInfo := []
  insts : List InstInfo := []
  names : List Text := []
deriving DecidableEq

inductive FlatTypes.Defect where
  | noInvalidType
  | noSideSlot
  | tooManyTypes
  | elemRange (id elem : TypeId)
  | slotRange (id : TypeId) (kind : TypeKind) (slot : UInt32)
deriving DecidableEq

def FlatTypes.Defect.message (d : FlatTypes.Defect) : Text :=
  "types: malformed table data: " ++
    match d with
    | .noInvalidType => "missing invalid sentinel"
    | .noSideSlot => "missing side-table sentinel"
    | .tooManyTypes => "out of range"
    | .elemRange id elem =>
      "type " ++ Text.ofNat id.toNat ++ ": element " ++ Text.ofNat elem.toNat ++ " out of range"
    | .slotRange id kind slot =>
      "type " ++ Text.ofNat id.toNat ++ " (" ++ kind.text ++ "): payload slot " ++
        Text.ofNat slot.toNat ++
        " out of range"

namespace TypeTable

def flatten (t : TypeTable) : FlatTypes where
  types := t.types.toList
  objects := t.objects.toList
  tuples := t.tuples.toList
  procs := t.procs.toList
  insts := t.insts.toList
  names := t.names.toList

def slots? (t : TypeTable) : TypeKind → Option Nat
  | .object => some t.objects.size
  | .tuple => some t.tuples.size
  | .proc => some t.procs.size
  | .genericInst => some t.insts.size
  | .distinct | .genericParam => some t.names.size
  | _ => none

def defect? (t : TypeTable) (id : TypeId) (d : TypeDesc) : Option FlatTypes.Defect :=
  if d.kind.hasElem && t.size ≤ d.elem.toNat then some (.elemRange id d.elem)
  else
    match t.slots? d.kind with
    | some n => if d.payload.toNat < n then none else some (.slotRange id d.kind d.payload)
    | none => none

/-- A plain descriptor of a type without parts is where that builtin is found from now on. -/
def noteBuiltin (b : Builtins) (id : TypeId) (d : TypeDesc) : Builtins :=
  if d.flags.bits ≠ 0 then b
  else
    match d.kind with
    | .void => { b with void := id }
    | .bool => { b with bool := id }
    | .int => { b with int := id }
    | .float => { b with float := id }
    | .char => { b with char := id }
    | .nil => { b with nil := id }
    | .string => { b with string := id }
    | _ => b

/-- Enters a descriptor that is already in the list: of two equal shapes the first keeps the
index. -/
def note (t : TypeTable) (id : TypeId) (d : TypeDesc) : TypeTable :=
  { t with
    index := if t.index.contains d then t.index else t.index.insert d id
    builtins := noteBuiltin t.builtins id d }

def noteAll (t : TypeTable) : List TypeDesc → TypeId → TypeTable × List FlatTypes.Defect
  | [], _ => (t, [])
  | d :: ds, id =>
    match t.defect? id d with
    | some e =>
      let (t, es) := t.noteAll ds (id + 1)
      (t, e :: es)
    | none => (t.note id d).noteAll ds (id + 1)

def ofFlat (f : FlatTypes) : Except (List FlatTypes.Defect) TypeTable :=
  if f.types.head?.map (·.kind) ≠ some .invalid then .error [.noInvalidType]
  else if f.objects.isEmpty || f.tuples.isEmpty || f.procs.isEmpty || f.insts.isEmpty ||
      f.names.isEmpty then
    .error [.noSideSlot]
  else if UInt32.size ≤ f.types.length then .error [.tooManyTypes]
  else
    let t : TypeTable :=
      { types := f.types.toArray, objects := f.objects.toArray, tuples := f.tuples.toArray
        procs := f.procs.toArray, insts := f.insts.toArray, names := f.names.toArray }
    match t.noteAll f.types 0 with
    | (t, []) => .ok t
    | (_, es) => .error es

end TypeTable

end Lifecycle
