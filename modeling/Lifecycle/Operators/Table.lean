import Lifecycle.Tree.Symbol
import Lifecycle.Types.Reach

/-!
# Lifecycle operators

A type can have operators that destroy, copy and sink its values. Declared operators are registered
for their type, and an operation can be disabled for a type. The rest is made up on demand; what was
made up is remembered here, as are the answers to which types have a lifecycle at all.
-/

namespace Lifecycle

inductive OpKind where
  | destroy
  | copy
  | sink
  | other (code : UInt8) (beyond : 3 ≤ code)
deriving DecidableEq

namespace OpKind

def named : List OpKind := [.destroy, .copy, .sink]

def code : OpKind → UInt8
  | .destroy => 0
  | .copy => 1
  | .sink => 2
  | .other c _ => c

def ofCode (c : UInt8) : OpKind :=
  if h : 3 ≤ c then .other c h else (named[c.toNat]?).getD .destroy

def text : OpKind → Text
  | .destroy => "=destroy"
  | .copy => "=copy"
  | .sink => "=sink"
  | .other _ _ => "=?"

def ofText? (t : Text) : Option OpKind := named.find? (·.text = t)

end OpKind

abbrev OpKey := TypeId × OpKind

structure OperatorTable where
  user : Dict OpKey SymRef := {}
  disabled : Dict OpKey Unit := {}
  synth : Dict OpKey SymRef := {}
  branch : Dict TypeId SymRef := {}
  lifetime : Dict TypeId Bool := {}
  magics : Dict Magic SymRef := {}

structure OpEntry where
  type : TypeId
  kind : OpKind
  op : Option SymRef
  disabled : Bool
deriving DecidableEq

namespace OpEntry

def le (a b : OpEntry) : Bool :=
  if a.type ≠ b.type then a.type < b.type
  else if a.kind.code ≠ b.kind.code then a.kind.code < b.kind.code
  else !a.disabled || b.disabled

end OpEntry

namespace OperatorTable

def disable (t : OperatorTable) (type : TypeId) (kind : OpKind) : OperatorTable :=
  { t with disabled := t.disabled.insert (type, kind) (), synth := {} }

def entries (t : OperatorTable) : List OpEntry :=
  let user := t.user.entries.map fun (k, op) => OpEntry.mk k.1 k.2 (some op) false
  let disabled := t.disabled.entries.map fun (k, _) => OpEntry.mk k.1 k.2 none true
  (user ++ disabled).mergeSort OpEntry.le

def hasUser (t : OperatorTable) (type : TypeId) : Bool :=
  OpKind.named.any fun k => t.user.contains (type, k)

end OperatorTable

structure OpState where
  table : OperatorTable := {}
  symbols : Symbols := {}

/-- Questions to the operators. What they remember stays also when a fault ends them. -/
abbrev OpM := EStateM Fault OpState

def OpM.lift {α : Type} : Except Fault α → OpM α
  | .ok a => pure a
  | .error e => throw e

namespace OpState

def register (s : OpState) (type : TypeId) (kind : OpKind) (op : SymRef) : OpState where
  symbols := s.symbols.setFlags op .overridden
  table := { s.table with user := s.table.user.insert (type, kind) op, lifetime := {}, synth := {} }

def modifyFlags (s : OpState) (r : SymRef) (f : SymFlags → SymFlags) : OpState :=
  { s with symbols := s.symbols.modify r fun x => { x with flags := f x.flags } }

def disable (s : OpState) (type : TypeId) (kind : OpKind) : OpState :=
  { s with table := s.table.disable type kind }

def isUserDefined (s : OpState) (types : TypeTable) (type : TypeId) (kind : OpKind) : Bool :=
  [type, types.canonical type].any fun id =>
    s.symbols.has (s.table.user.get? (id, kind)) .overridden

end OpState

def OpM.newRoutine (name : Text) (magic : Magic) : OpM SymRef := do
  let s ← get
  let (r, symbols) := s.symbols.fresh { name, kind := .proc, magic, flags := .generated }
  set { s with symbols }
  return r

def OpM.magic (m : Magic) : OpM SymRef := do
  match (← get).table.magics.get? m with
  | some r => return r
  | none =>
    let r ← newRoutine m.text m
    modify fun s => { s with table := { s.table with magics := s.table.magics.insert m r } }
    return r

end Lifecycle
