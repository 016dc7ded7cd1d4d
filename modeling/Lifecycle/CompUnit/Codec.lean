import Lifecycle.CompUnit.Basic
import Lifecycle.CompUnit.Record
import Lifecycle.Packed.Parse
import Lifecycle.Text.Quoted
import Lifecycle.Tree.WellFormed

/-!
# Unit files

`CompUnit.encode` writes a unit, `CompUnit.decode` reads one. Reading refuses a file of another
schema, and one whose numbers do not fit together; then all that is wrong is told.
-/

namespace Lifecycle

def schemaVersion : UInt16 := 1

/-! ## Writing -/

inductive EncodeError where
  | noId (name : Text)
  | sharedId (first second : Text) (id : UInt32)
  | position (name : Text)
deriving DecidableEq

def EncodeError.message : EncodeError → Text
  | .noId name => "unit: symbol " ++ name.quoted ++ " has no id"
  | .sharedId a b id =>
    "unit: symbols " ++ a.quoted ++ " and " ++ b.quoted ++ " share id " ++ Text.ofNat id.toNat
  | .position name => "unit: symbol " ++ name ++ ": position: out of range"

structure Encoding where
  known : Dict UInt32 SymRef := {}
  error : Option EncodeError := none

namespace Encoding

def fail (e : Encoding) (err : EncodeError) : Encoding :=
  { e with error := e.error.or (some err) }

def noteWithin (ss : Symbols) : Nat → Encoding → Option SymRef → Encoding
  | 0, e, _ => e
  | _ + 1, e, none => e
  | n + 1, e, some r =>
    let s := ss.get r
    if s.id = 0 then e.fail (.noId s.name)
    else
      match e.known.get? s.id with
      | some prev => if prev = r then e else e.fail (.sharedId (ss.get prev).name s.name s.id)
      | none => noteWithin ss n { e with known := e.known.insert s.id r } s.owner

def note (ss : Symbols) (e : Encoding) (r : Option SymRef) : Encoding :=
  noteWithin ss (ss.all.size + 1) e r

def noteTree (ss : Symbols) (e : Encoding) (n : Node) : Encoding :=
  n.preorder.foldl (fun e m => note ss e (m.head?.bind (·.sym))) e

def noteRoutine (ss : Symbols) (e : Encoding) (r : Routine) : Encoding :=
  let e := noteTree ss (note ss e r.sym) r.body
  note ss (r.params.foldl (note ss) e) r.result

end Encoding

namespace CompUnit

def wireId (ss : Symbols) : Option SymRef → UInt32
  | some r => (ss.get r).id
  | none => 0

def symbolRecord (ss : Symbols) (s : Symbol) : Except EncodeError SymbolRecord :=
  let p := s.position.toInt
  if -2147483648 ≤ p ∧ p ≤ 2147483647 then
    .ok {
      id := s.id
      name := s.name
      kind := s.kind.code
      owner := wireId ss s.owner
      type := s.type
      flags := s.flags.bits
      magic := s.magic.code
      position := .ofInt p
      span := s.span }
  else .error (.position s.name)

mutual

def nodeRecord (ss : Symbols) : Node → NodeRecord
  | .hole => .absent
  | .node h ks =>
    .node { kind := h.kind.code, type := h.type, span := h.span, sym := wireId ss h.sym
            int := h.int, str := h.str } (nodeRecords ss ks)

def nodeRecords (ss : Symbols) : List Node → List NodeRecord
  | [] => []
  | n :: ns => nodeRecord ss n :: nodeRecords ss ns

end

def routineRecord (ss : Symbols) (r : Routine) : RoutineRecord where
  sym := wireId ss r.sym
  params := r.params.map (wireId ss)
  result := wireId ss r.result
  body := nodeRecord ss r.body

def opRecord (ss : Symbols) (e : OpEntry) : OpRecord where
  type := e.type
  kind := e.kind.code
  op := wireId ss e.op
  disabled := e.disabled

def record (u : CompUnit) : Except EncodeError UnitRecord := do
  let ss := u.symbols
  let entries := u.ops.table.entries
  let e := entries.foldl (fun e x => Encoding.note ss e x.op) {}
  let e := u.routines.foldl (Encoding.noteRoutine ss) e
  if let some err := e.error then throw err
  let known := e.known.entries.mergeSort fun a b => a.1 ≤ b.1
  return {
    schema := schemaVersion
    name := u.name
    files := u.files.paths
    types := u.types.flatten
    symbols := ← known.mapM fun (_, r) => symbolRecord ss (ss.get r)
    ops := entries.map (opRecord ss)
    routines := u.routines.map (routineRecord ss) }

def encode (u : CompUnit) : Except EncodeError Text := do
  return .ofList (Packed.unit (← u.record)).bytes

end CompUnit

/-! ## Reading -/

inductive Corruption where
  | types (d : FlatTypes.Defect)
  | noId (name : Text)
  | duplicateId (id : UInt32)
  | unknownSymbol (id : UInt32)
  | typeRange (id : UInt32)
  | unknownFile (span : Span)
  | opKind (code : UInt8)
  | nodeKind (code : UInt8)
  | tree (routine : Nat) (defects : List TreeDefect)

def Corruption.message : Corruption → Text
  | .types d => d.message
  | .noId name => "symbol " ++ name.quoted ++ " has no id"
  | .duplicateId id => "duplicate symbol id " ++ Text.ofNat id.toNat
  | .unknownSymbol id => "unknown symbol " ++ Text.ofNat id.toNat
  | .typeRange id => "type " ++ Text.ofNat id.toNat ++ " out of range"
  | .unknownFile span => "span " ++ span.text ++ ": unknown file"
  | .opKind c => "operator kind " ++ Text.ofNat c.toNat
  | .nodeKind c => "node kind " ++ Text.ofNat c.toNat
  | .tree i ds =>
    "routine " ++ Text.ofNat i ++ ": " ++ Text.join "\n" (ds.map (·.message))

inductive DecodeError where
  | malformed (why : PackedFault)
  | schema (found : UInt16)
  | corrupt (all : List Corruption)

def DecodeError.message : DecodeError → Text
  | .malformed why => "unit: decode: " ++ why.message
  | .schema v =>
    "unit: schema version mismatch: file has " ++ Text.ofNat v.toNat ++ ", want " ++
      Text.ofNat schemaVersion.toNat
  | .corrupt all => "unit: corrupt payload: " ++ Text.join "\n" (all.map (·.message))

structure Decoding where
  unit : CompUnit
  known : Dict UInt32 SymRef := {}
  wrong : List Corruption := []

abbrev DecodeM := StateT Decoding (Except Fault)

namespace DecodeM

def complain (c : Corruption) : DecodeM Unit := modify fun d => { d with wrong := d.wrong ++ [c] }

def symbol (id : UInt32) : DecodeM (Option SymRef) := do
  match (← get).known.get? id with
  | some r => return some r
  | none =>
    complain (.unknownSymbol id)
    return none

def checkType (id : UInt32) : DecodeM Unit := do
  if (← get).unit.types.size ≤ id.toNat then complain (.typeRange id)

def checkSpan (s : Span) : DecodeM Unit := do
  if s.isUnknown then return
  if (← get).unit.files.size ≤ s.file.toNat then complain (.unknownFile s)

def modifySymbols (f : Symbols → Symbols) : DecodeM Unit :=
  modify fun d => { d with unit.ops.symbols := f d.unit.ops.symbols }

def addSymbol (r : SymbolRecord) : DecodeM Unit := do
  if r.id = 0 then complain (.noId r.name)
  else if (← get).known.contains r.id then complain (.duplicateId r.id)
  else
    checkType r.type
    checkSpan r.span
    let d ← get
    let (ref, symbols) := d.unit.ops.symbols.add {
      id := r.id
      name := r.name
      kind := .ofCode r.kind
      type := r.type
      flags := ⟨r.flags⟩
      magic := .ofCode r.magic
      position := r.position.toInt64
      span := r.span }
    set { d with
      known := d.known.insert r.id ref
      unit.ops.symbols := { symbols with lastId := max symbols.lastId r.id } }

def linkOwner (r : SymbolRecord) : DecodeM Unit := do
  if r.owner = 0 then return
  if let some ref := (← get).known.get? r.id then
    let owner ← symbol r.owner
    modifySymbols fun ss => ss.modify ref fun s => { s with owner }

def addOp (r : OpRecord) : DecodeM Unit := do
  match OpKind.ofCode r.kind with
  | .other c _ => complain (.opKind c)
  | kind =>
    checkType r.type
    if r.disabled then modify fun d => { d with unit.ops := d.unit.ops.disable r.type kind }
    else if let some op ← symbol r.op then
      modify fun d => { d with unit.ops := d.unit.ops.register r.type kind op }

mutual

def node : NodeRecord → DecodeM Node
  | .absent => return .hole
  | .node f ks => do
    let kind := NodeKind.ofCode f.kind
    if let .other c _ := kind then complain (.nodeKind c)
    checkType f.type
    checkSpan f.span
    let sym ← if f.sym = 0 then pure none else symbol f.sym
    return .node { kind, type := f.type, span := f.span, sym, int := f.int, str := f.str }
      (← nodes ks)

def nodes : List NodeRecord → DecodeM (List Node)
  | [] => return []
  | n :: ns => do
    let n ← node n
    return n :: (← nodes ns)

end

def addRoutine (r : RoutineRecord) : DecodeM Unit := do
  let sym ← symbol r.sym
  let body ← node r.body
  let params ← r.params.mapM symbol
  let result ← if r.result = 0 then pure none else symbol r.result
  let u := (← get).unit
  if !body.isHole then
    let defects ← body.defects u.symbols
    if !defects.isEmpty then complain (.tree u.routines.length defects)
  modify fun d => { d with unit := d.unit.addFresh { sym, params, result, body } }

def all (r : UnitRecord) : DecodeM Unit := do
  r.symbols.forM addSymbol
  r.symbols.forM linkOwner
  r.ops.forM addOp
  r.routines.forM addRoutine

end DecodeM

namespace UnitRecord

def parse? (t : Text) : Option UnitRecord := do
  let (v, _) ← (Packed.parse t.toList).toOption
  Loader.unit t.size [v]

/-- The unit of a record. A tree can be so malformed that looking for its defects faults. -/
def unit (r : UnitRecord) : Except Fault (Except DecodeError CompUnit) :=
  match TypeTable.ofFlat r.types with
  | .error ds => .ok (.error (.corrupt (ds.map .types)))
  | .ok types => do
    let start : CompUnit := { name := r.name, files := .ofList r.files, types }
    let (_, d) ← (DecodeM.all r).run { unit := start }
    return if d.wrong.isEmpty then .ok d.unit else .error (.corrupt d.wrong)

end UnitRecord

namespace CompUnit

def decode (t : Text) : Except Fault (Except DecodeError CompUnit) :=
  match UnitRecord.parse? t with
  | none => .ok (.error (.malformed ((Layout.unit t.size).fault t.toList)))
  | some r => if r.schema = schemaVersion then r.unit else .ok (.error (.schema r.schema))

def withOwners (ss : Symbols) : Nat → List SymRef → Option SymRef → List SymRef
  | 0, seen, _ => seen
  | _ + 1, seen, none => seen
  | n + 1, seen, some r =>
    if seen.contains r then seen else withOwners ss n (r :: seen) (ss.get r).owner

def symbolsUsed (u : CompUnit) : List SymRef :=
  let ss := u.symbols
  let direct := u.routines.flatMap (fun r =>
      r.sym :: r.result :: r.params ++ r.body.preorder.map fun m => m.head?.bind (·.sym)) ++
    u.ops.table.entries.map (·.op)
  direct.foldl (withOwners ss (ss.all.size + 1)) []

end CompUnit

end Lifecycle
