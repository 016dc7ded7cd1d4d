import Lifecycle.Dict
import Lifecycle.Fault
import Lifecycle.Listed
import Lifecycle.Types.Kind

/-!
# The type table

Types are numbered. Structural types (sequences, references, arrays, tuples, ...) get one number per
shape; nominal ones (objects, distinct types, instances, routine types, generic parameters) get a
new number each time they are declared. Number 0 is the type of what has none. A number has 32 bits:
a table in which one more type was declared than there are numbers is `overrun`.
-/

namespace Lifecycle

abbrev TypeId := UInt32

structure TypeFlags where
  bits : UInt8 := 0
deriving DecidableEq

namespace TypeFlags

def acyclic : TypeFlags := ⟨1⟩

def constSeq : TypeFlags := ⟨2⟩

def has (f g : TypeFlags) : Bool := f.bits &&& g.bits != 0

def union (f g : TypeFlags) : TypeFlags := ⟨f.bits ||| g.bits⟩

end TypeFlags

/-- What the table knows of one type. `elem` is the element, base or body; `count` the length of an
array; `payload` the slot in the side table of the kind. -/
structure TypeDesc where
  kind : TypeKind := .invalid
  elem : TypeId := 0
  count : UInt32 := 0
  payload : UInt32 := 0
  flags : TypeFlags := {}
deriving DecidableEq

structure Field where
  name : Text
  type : TypeId
  cursor : Bool := false
deriving DecidableEq

structure VariantArm where
  values : Listed Int64 := none
  fields : Listed Int64 := none
deriving DecidableEq

structure Variant where
  discriminant : Int64 := 0
  arms : Listed VariantArm := none
deriving DecidableEq

structure ObjectInfo where
  name : Text := Text.empty
  fields : Listed Field := none
  variant : Option Variant := none
deriving DecidableEq

structure Param where
  type : TypeId
  sink : Bool := false
  compileTime : Bool := false
deriving DecidableEq

structure ProcInfo where
  params : Listed Param := none
  result : TypeId := 0
  raises : Bool := false
deriving DecidableEq

structure InstInfo where
  name : Text := Text.empty
  args : Listed TypeId := none
deriving DecidableEq

structure Builtins where
  invalid : TypeId := 0
  void : TypeId := 0
  bool : TypeId := 0
  int : TypeId := 0
  float : TypeId := 0
  char : TypeId := 0
  nil : TypeId := 0
  string : TypeId := 0
deriving DecidableEq

structure TypeTable where
  types : Array TypeDesc := #[]
  index : Dict TypeDesc TypeId := {}
  builtins : Builtins := {}
  objects : Array ObjectInfo := #[{}]
  tuples : Array (Listed TypeId) := #[none]
  procs : Array ProcInfo := #[{}]
  insts : Array InstInfo := #[{}]
  names : Array Text := #[Text.empty]
  overrun : Bool := false

namespace TypeTable

def size (t : TypeTable) : Nat := t.types.size

def push (t : TypeTable) (d : TypeDesc) : TypeTable :=
  { t with types := t.types.push d, index := t.index.insert d (.ofNat t.size) }

def append (t : TypeTable) (d : TypeDesc) : TypeId × TypeTable :=
  if t.size < UInt32.size then (.ofNat t.size, t.push d) else (0, { t with overrun := true })

/-- Declares a type that has more to say of itself, in a slot of the side table of its kind. -/
def appendAt (t : TypeTable) (slot : Nat) (d : TypeDesc) : TypeId × TypeTable :=
  if slot < UInt32.size then t.append { d with payload := .ofNat slot }
  else (0, { t with overrun := true })

def intern (t : TypeTable) (d : TypeDesc) : TypeId × TypeTable :=
  if d.kind = .invalid then (0, t)
  else
    match t.index.get? d with
    | some id => (id, t)
    | none => t.append d

def initial : TypeTable :=
  let (invalid, t) := TypeTable.append {} {}
  let (void, t) := t.intern { kind := .void }
  let (bool, t) := t.intern { kind := .bool }
  let (int, t) := t.intern { kind := .int }
  let (float, t) := t.intern { kind := .float }
  let (char, t) := t.intern { kind := .char }
  let (nil, t) := t.intern { kind := .nil }
  let (string, t) := t.intern { kind := .string }
  { t with builtins := ⟨invalid, void, bool, int, float, char, nil, string⟩ }

/-! ## Looking types up -/

def lookup (t : TypeTable) (id : TypeId) : Option TypeDesc :=
  if id = 0 then none else t.types[id.toNat]?

def lookupOrFail (t : TypeTable) (id : TypeId) : Except Fault TypeDesc :=
  match t.lookup id with
  | some d => .ok d
  | none => .error .unknownType

def kindOf (t : TypeTable) (id : TypeId) : TypeKind :=
  match t.lookup id with
  | some d => d.kind
  | none => .invalid

def objectSlot? (t : TypeTable) (id : TypeId) : Option Nat :=
  match t.lookup id with
  | some d =>
    if d.kind = .object ∧ d.payload.toNat < t.objects.size then some d.payload.toNat else none
  | none => none

def object? (t : TypeTable) (id : TypeId) : Option ObjectInfo :=
  (t.objectSlot? id).bind (t.objects[·]?)

def tupleElems (t : TypeTable) (id : TypeId) : Except Fault (List TypeId) :=
  match t.lookup id with
  | some d =>
    if d.kind = .tuple then do return (← orAbsent t.tuples[d.payload.toNat]?).items else .ok []
  | none => .ok []

def procInfo? (t : TypeTable) (id : TypeId) : Except Fault (Option ProcInfo) :=
  let through := (t.lookup id).bind fun d =>
    if d.kind = .closure then t.lookup d.elem else some d
  match through with
  | some d => if d.kind = .proc then some <$> orAbsent t.procs[d.payload.toNat]? else .ok none
  | none => .ok none

def instInfo? (t : TypeTable) (id : TypeId) : Except Fault (Option InstInfo) :=
  match t.lookup id with
  | some d =>
    if d.kind = .genericInst then some <$> orAbsent t.insts[d.payload.toNat]? else .ok none
  | none => .ok none

/-! ## Declaring types -/

def seq (t : TypeTable) (elem : TypeId) : TypeId × TypeTable := t.intern { kind := .seq, elem }

def constSeq (t : TypeTable) (elem : TypeId) : TypeId × TypeTable :=
  t.intern { kind := .seq, elem, flags := .constSeq }

def ref (t : TypeTable) (elem : TypeId) : TypeId × TypeTable := t.intern { kind := .ref, elem }

def acyclicRef (t : TypeTable) (elem : TypeId) : TypeId × TypeTable :=
  t.intern { kind := .ref, elem, flags := .acyclic }

def ptr (t : TypeTable) (elem : TypeId) : TypeId × TypeTable := t.intern { kind := .ptr, elem }

def varOf (t : TypeTable) (elem : TypeId) : TypeId × TypeTable := t.intern { kind := .var, elem }

def openArray (t : TypeTable) (elem : TypeId) : TypeId × TypeTable :=
  t.intern { kind := .openArray, elem }

def array (t : TypeTable) (elem : TypeId) (count : UInt32) : TypeId × TypeTable :=
  t.intern { kind := .array, elem, count }

def closure (t : TypeTable) (proc : TypeId) : TypeId × TypeTable :=
  t.intern { kind := .closure, elem := proc }

def findTuple (t : TypeTable) (elems : List TypeId) :
    List TypeDesc → TypeId → Except Fault (Option TypeId)
  | [], _ => .ok none
  | d :: ds, id => do
    if d.kind = .tuple then
      if (← orAbsent t.tuples[d.payload.toNat]?).items = elems then return some id
    t.findTuple elems ds (id + 1)

def tuple (t : TypeTable) (elems : Listed TypeId) : Except Fault (TypeId × TypeTable) := do
  match ← t.findTuple elems.items (t.types.toList.drop 1) 1 with
  | some id => return (id, t)
  | none =>
    return { t with tuples := t.tuples.push elems }.appendAt t.tuples.size { kind := .tuple }

def proc (t : TypeTable) (info : ProcInfo) : TypeId × TypeTable :=
  { t with procs := t.procs.push info }.appendAt t.procs.size { kind := .proc }

def distinct (t : TypeTable) (name : Text) (base : TypeId) : TypeId × TypeTable :=
  { t with names := t.names.push name }.appendAt t.names.size { kind := .distinct, elem := base }

def genericParam (t : TypeTable) (name : Text) : TypeId × TypeTable :=
  { t with names := t.names.push name }.appendAt t.names.size { kind := .genericParam }

def instantiate (t : TypeTable) (name : Text) (args : Listed TypeId) (body : TypeId) :
    TypeId × TypeTable :=
  { t with insts := t.insts.push { name, args } }.appendAt t.insts.size
    { kind := .genericInst, elem := body }

def declareObject (t : TypeTable) (name : Text) (fields : Listed Field) : TypeId × TypeTable :=
  { t with objects := t.objects.push { name, fields } }.appendAt t.objects.size { kind := .object }

def modifyObject (t : TypeTable) (id : TypeId) (f : ObjectInfo → ObjectInfo) : TypeTable :=
  match t.objectSlot? id with
  | some slot => { t with objects := t.objects.modify slot f }
  | none => t

def setFields (t : TypeTable) (id : TypeId) (fields : Listed Field) : TypeTable :=
  t.modifyObject id fun o => { o with fields }

def setVariant (t : TypeTable) (id : TypeId) (v : Variant) : TypeTable :=
  t.modifyObject id fun o => { o with variant := some v }

def markAcyclic (t : TypeTable) (id : TypeId) : TypeTable :=
  { t with types := t.types.modify id.toNat fun d =>
      if d.kind = .object then { d with flags := d.flags.union .acyclic } else d }

end TypeTable

end Lifecycle
