import Lifecycle.Packed.Layout
import Lifecycle.Packed.Load
import Lifecycle.Source.Span
import Lifecycle.Types.Flat

/-!
# The records of a unit file

What a unit file holds: files, types, symbols, operators and routines. Symbols are written once and
referred to by their number.
-/

namespace Lifecycle

structure SymbolRecord where
  id : UInt32 := 0
  name : Text := Text.empty
  kind : UInt8 := 0
  owner : UInt32 := 0
  type : UInt32 := 0
  flags : UInt32 := 0
  magic : UInt8 := 0
  position : Int32 := 0
  span : Span := {}
deriving DecidableEq

structure NodeFields where
  kind : UInt8 := 0
  type : UInt32 := 0
  span : Span := {}
  sym : UInt32 := 0
  int : Int64 := 0
  str : Text := Text.empty
deriving DecidableEq

inductive NodeRecord where
  | absent
  | node (fields : NodeFields) (kids : List NodeRecord)

structure RoutineRecord where
  sym : UInt32 := 0
  params : List UInt32 := []
  result : UInt32 := 0
  body : NodeRecord := .absent

structure OpRecord where
  type : UInt32 := 0
  kind : UInt8 := 0
  op : UInt32 := 0
  disabled : Bool := false
deriving DecidableEq

structure UnitRecord where
  schema : UInt16 := 0
  name : Text := Text.empty
  files : List Text := []
  types : FlatTypes := {}
  symbols : List SymbolRecord := []
  ops : List OpRecord := []
  routines : List RoutineRecord := []

/-! ## Packing -/

namespace Packed

def span (s : Span) : Packed :=
  record [("File", word32 s.file), ("Line", word32 s.line), ("Col", word32 s.col)]

def typeDesc (d : TypeDesc) : Packed :=
  record [("Kind", word8 d.kind.code), ("Elem", word32 d.elem), ("Count", word32 d.count),
    ("Payload", word32 d.payload), ("Flags", word8 d.flags.bits)]

def field (f : Field) : Packed :=
  record [("Name", .str f.name), ("Type", word32 f.type), ("Cursor", .bool f.cursor)]

def variantArm (a : VariantArm) : Packed :=
  record [("Values", listed int64 a.values), ("Fields", listed shortest a.fields)]

def variant (v : Variant) : Packed :=
  record [("Discriminant", shortest v.discriminant), ("Branches", listed variantArm v.arms)]

def objectInfo (o : ObjectInfo) : Packed :=
  record [("Name", .str o.name), ("Fields", listed field o.fields),
    ("Variant", match o.variant with
      | some v => variant v
      | none => .nil)]

def param (p : Param) : Packed :=
  record [("Type", word32 p.type), ("Sink", .bool p.sink), ("CompileTime", .bool p.compileTime)]

def procInfo (p : ProcInfo) : Packed :=
  record [("Params", listed param p.params), ("Result", word32 p.result),
    ("Raises", .bool p.raises)]

def instInfo (i : InstInfo) : Packed :=
  record [("Name", .str i.name), ("Args", listed word32 i.args)]

def flatTypes (f : FlatTypes) : Packed :=
  record [("types", .arr (f.types.map typeDesc)), ("objects", .arr (f.objects.map objectInfo)),
    ("tuples", .arr (f.tuples.map (listed word32))), ("procs", .arr (f.procs.map procInfo)),
    ("insts", .arr (f.insts.map instInfo)), ("names", .arr (f.names.map .str))]

def symbol (s : SymbolRecord) : Packed :=
  record [("ID", word32 s.id), ("Name", .str s.name), ("Kind", word8 s.kind),
    ("Owner", word32 s.owner), ("Type", word32 s.type), ("Flags", word32 s.flags),
    ("Magic", word8 s.magic), ("Position", int32 s.position), ("Span", span s.span)]

def nodeFields (f : NodeFields) (kids : Packed) : Packed :=
  record [("Kind", word8 f.kind), ("Type", word32 f.type), ("Span", span f.span),
    ("Sym", word32 f.sym), ("Int", int64 f.int), ("Str", .str f.str), ("Kids", kids)]

mutual

def node : NodeRecord → Packed
  | .absent => .nil
  | .node f [] => nodeFields f .nil
  | .node f (k :: ks) => nodeFields f (.arr (node k :: nodes ks))

def nodes : List NodeRecord → List Packed
  | [] => []
  | n :: ns => node n :: nodes ns

end

def routine (r : RoutineRecord) : Packed :=
  record [("Sym", word32 r.sym), ("Params", listed word32 (Listed.ofList r.params)),
    ("Result", word32 r.result), ("Body", node r.body)]

def op (o : OpRecord) : Packed :=
  record [("Type", word32 o.type), ("Kind", word8 o.kind), ("Op", word32 o.op),
    ("Disabled", .bool o.disabled)]

def unit (u : UnitRecord) : Packed :=
  record [("Schema", word16 u.schema), ("Name", .str u.name), ("Files", .arr (u.files.map .str)),
    ("Types", flatTypes u.types), ("Symbols", listed symbol (Listed.ofList u.symbols)),
    ("Ops", listed op (Listed.ofList u.ops)),
    ("Routines", listed routine (Listed.ofList u.routines))]

end Packed

/-! ## Loading -/

namespace Loader

def span : Loader Span := record ["File", "Line", "Col"] fun f => do
  return ⟨← word32 (f "File"), ← word32 (f "Line"), ← word32 (f "Col")⟩

def typeDesc : Loader TypeDesc := record ["Kind", "Elem", "Count", "Payload", "Flags"] fun f => do
  return {
    kind := .ofCode (← word8 (f "Kind"))
    elem := ← word32 (f "Elem")
    count := ← word32 (f "Count")
    payload := ← word32 (f "Payload")
    flags := ⟨← word8 (f "Flags")⟩ }

def field : Loader Field := record ["Name", "Type", "Cursor"] fun f => do
  return ⟨← text (f "Name"), ← word32 (f "Type"), ← bool (f "Cursor")⟩

def variantArm : Loader VariantArm := record ["Values", "Fields"] fun f => do
  return ⟨← list int64 (f "Values"), ← list int64 (f "Fields")⟩

def variant : Loader Variant := record ["Discriminant", "Branches"] fun f => do
  return ⟨← int64 (f "Discriminant"), ← list variantArm (f "Branches")⟩

def objectInfo : Loader ObjectInfo := record ["Name", "Fields", "Variant"] fun f => do
  return ⟨← text (f "Name"), ← list field (f "Fields"), ← optional variant (f "Variant")⟩

def param : Loader Param := record ["Type", "Sink", "CompileTime"] fun f => do
  return ⟨← word32 (f "Type"), ← bool (f "Sink"), ← bool (f "CompileTime")⟩

def procInfo : Loader ProcInfo := record ["Params", "Result", "Raises"] fun f => do
  return ⟨← list param (f "Params"), ← word32 (f "Result"), ← bool (f "Raises")⟩

def instInfo : Loader InstInfo := record ["Name", "Args"] fun f => do
  return ⟨← text (f "Name"), ← list word32 (f "Args")⟩

def plainList {α : Type} (elem : Loader α) : Loader (List α) := fun vs =>
  (list elem vs).map Listed.items

def flatTypes : Loader FlatTypes :=
  record ["types", "objects", "tuples", "procs", "insts", "names"] fun f => do
    return {
      types := ← plainList typeDesc (f "types")
      objects := ← plainList objectInfo (f "objects")
      tuples := ← plainList (list word32) (f "tuples")
      procs := ← plainList procInfo (f "procs")
      insts := ← plainList instInfo (f "insts")
      names := (← texts (f "names")).items }

def symbol : Loader SymbolRecord :=
  record ["ID", "Name", "Kind", "Owner", "Type", "Flags", "Magic", "Position", "Span"] fun f => do
    return {
      id := ← word32 (f "ID")
      name := ← text (f "Name")
      kind := ← word8 (f "Kind")
      owner := ← word32 (f "Owner")
      type := ← word32 (f "Type")
      flags := ← word32 (f "Flags")
      magic := ← word8 (f "Magic")
      position := ← int32 (f "Position")
      span := ← span (f "Span") }

def node : Nat → Loader NodeRecord
  | 0 => fun _ => none
  | d + 1 => fun vs => do
    let n ← optional (record ["Kind", "Type", "Span", "Sym", "Int", "Str", "Kids"] fun f => do
      let fields : NodeFields := {
        kind := ← word8 (f "Kind")
        type := ← word32 (f "Type")
        span := ← span (f "Span")
        sym := ← word32 (f "Sym")
        int := ← int64 (f "Int")
        str := ← text (f "Str") }
      let kids := f "Kids"
      return NodeRecord.node fields
        (← if kids.isEmpty then some [] else plainList (node d) kids)) vs
    return n.getD .absent

def routine (depth : Nat) : Loader RoutineRecord :=
  record ["Sym", "Params", "Result", "Body"] fun f => do
    let body := f "Body"
    return {
      sym := ← word32 (f "Sym")
      params := ← plainList word32 (f "Params")
      result := ← word32 (f "Result")
      body := ← if body.isEmpty then some .absent else node depth body }

def op : Loader OpRecord := record ["Type", "Kind", "Op", "Disabled"] fun f => do
  return ⟨← word32 (f "Type"), ← word8 (f "Kind"), ← word32 (f "Op"), ← bool (f "Disabled")⟩

def unit (depth : Nat) : Loader UnitRecord :=
  record ["Schema", "Name", "Files", "Types", "Symbols", "Ops", "Routines"] fun f => do
    return {
      schema := ← word16 (f "Schema")
      name := ← text (f "Name")
      files := (← texts (f "Files")).items
      types := ← flatTypes (f "Types")
      symbols := ← plainList symbol (f "Symbols")
      ops := ← plainList op (f "Ops")
      routines := ← plainList (routine depth) (f "Routines") }

end Loader

/-! ## Layouts -/

namespace Layout

def span : Layout := record [("File", word), ("Line", word), ("Col", word)]

def typeDesc : Layout :=
  record [("Kind", word), ("Elem", word), ("Count", word), ("Payload", word), ("Flags", word)]

def field : Layout := record [("Name", text), ("Type", word), ("Cursor", bool)]

def variantArm : Layout := record [("Values", list int), ("Fields", list int)]

def variant : Layout := record [("Discriminant", int), ("Branches", list variantArm)]

def objectInfo : Layout :=
  record [("Name", text), ("Fields", list field), ("Variant", optional variant)]

def param : Layout := record [("Type", word), ("Sink", bool), ("CompileTime", bool)]

def procInfo : Layout := record [("Params", list param), ("Result", word), ("Raises", bool)]

def instInfo : Layout := record [("Name", text), ("Args", list word)]

def flatTypes : Layout :=
  record [("types", list typeDesc), ("objects", list objectInfo), ("tuples", list (list word)),
    ("procs", list procInfo), ("insts", list instInfo), ("names", list text)]

def symbol : Layout :=
  record [("ID", word), ("Name", text), ("Kind", word), ("Owner", word), ("Type", word),
    ("Flags", word), ("Magic", word), ("Position", int), ("Span", span)]

def node : Nat → Layout
  | 0 => throw .ended
  | d + 1 => fun bs =>
    (optional (record [("Kind", word), ("Type", word), ("Span", span), ("Sym", word), ("Int", int),
      ("Str", text), ("Kids", list (node d))])) bs

def routine (depth : Nat) : Layout :=
  record [("Sym", word), ("Params", list word), ("Result", word), ("Body", node depth)]

def op : Layout := record [("Type", word), ("Kind", word), ("Op", word), ("Disabled", bool)]

def unit (depth : Nat) : Layout :=
  record [("Schema", word), ("Name", text), ("Files", list text), ("Types", flatTypes),
    ("Symbols", list symbol), ("Ops", list op), ("Routines", list (routine depth))]

end Layout

end Lifecycle
