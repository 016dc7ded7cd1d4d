import Lifecycle.Listed
import Lifecycle.Packed.Value

/-!
# Values as records

A file may give a field more than once. Later values are read over earlier ones: a plain value
replaces the one before, a record keeps the fields that the later one does not mention, and the
items of a list are read over those of the list before, each over the one in its place. So a
`Loader` takes all values that were given for one place, in order; without any it yields the zero of
its type.
-/

namespace Lifecycle

/-- Reads the values given for one place; none if one of them is of the wrong kind. -/
abbrev Loader (α : Type) := List Packed → Option α

namespace Packed

def bits? : Packed → Option UInt64
  | .nil => some 0
  | .num _ n => some n
  | _ => none

def text? : Packed → Option Text
  | .nil => some Text.empty
  | .str t | .bin t => some t
  | _ => none

def bool? : Packed → Option Bool
  | .nil => some false
  | .bool b => some b
  | _ => none

def items? : Packed → Option (Listed Packed)
  | .nil => some none
  | .arr vs => some (some vs)
  | _ => none

end Packed

namespace Loader

variable {α : Type}

def last (zero : α) (f : Packed → Option α) : Loader α := fun vs => do
  return (← vs.mapM f).getLast?.getD zero

def bits : Loader UInt64 := last 0 Packed.bits?

def word8 : Loader UInt8 := fun vs => (bits vs).map (·.toUInt8)

def word16 : Loader UInt16 := fun vs => (bits vs).map (·.toUInt16)

def word32 : Loader UInt32 := fun vs => (bits vs).map (·.toUInt32)

def int32 : Loader Int32 := fun vs => (bits vs).map (·.toUInt32.toInt32)

def int64 : Loader Int64 := fun vs => (bits vs).map (·.toInt64)

def text : Loader Text := last Text.empty Packed.text?

def bool : Loader Bool := last false Packed.bool?

def texts : Loader (Listed Text) := fun vs => do
  let lists ← (← vs.mapM Packed.items?).mapM fun
    | some items => return some (← items.mapM Packed.text?)
    | none => return none
  return (lists.filterMap id).getLast?

def zipOver : List (List Packed) → List Packed → List (List Packed)
  | cells, [] => cells
  | [], v :: vs => [v] :: zipOver [] vs
  | c :: cells, v :: vs => (c ++ [v]) :: zipOver cells vs

/-- Runs of values between those that set the place back to its zero. The last run counts. -/
def runs (isReset : Packed → Bool) : List Packed → List (List Packed)
  | [] => [[]]
  | v :: vs =>
    match runs isReset vs with
    | [] => [[v]]
    | r :: rs => if isReset v then [] :: r :: rs else (v :: r) :: rs

def isNil : Packed → Bool
  | .nil => true
  | _ => false

def lastRun (isReset : Packed → Bool) (f : Loader α) : Loader α := fun vs => do
  (← (runs isReset vs).mapM f).getLast?

/-- A run of lists: the length is that of the last, an item is read over those in its place. -/
def listRun (elem : Loader α) : Loader (Listed α) := fun vs => do
  let lists ← vs.mapM Packed.items?
  let lists := lists.map Listed.items
  match lists.getLast? with
  | none => return none
  | some final =>
    let items ← (lists.foldl zipOver []).mapM elem
    return some (items.take final.length)

def list (elem : Loader α) : Loader (Listed α) := lastRun isNil (listRun elem)

def optional (f : Loader α) : Loader (Option α) :=
  lastRun isNil fun vs => if vs.isEmpty then some none else (f vs).map some

def fieldsOf (names : List String) : Packed → Option (List (Text × Packed))
  | .map entries => entries.mapM fun (k, v) => do return (← k.text?, v)
  | .arr items =>
    if items.length = names.length then some ((names.map Text.ofString).zip items) else none
  | _ => none

def isBlank : Packed → Bool
  | .nil | .arr [] => true
  | _ => false

abbrev Fields := String → List Packed

def record (names : List String) (f : Fields → Option α) : Loader α :=
  lastRun isBlank fun vs => do
    let all := (← vs.mapM (fieldsOf names)).flatten
    f fun name => (all.filter (·.1 = (name : Text))).map (·.2)

end Loader

end Lifecycle
