import Lifecycle.Packed.Parse

/-!
# What bytes should hold

A `Layout` steps over bytes that hold a value of a certain kind, and says where they go wrong if
they do not: at the first byte that starts no value, or a value of another kind, or where they end
too early.
-/

namespace Lifecycle

abbrev Layout := ByteReader Unit

namespace Layout

open Packed (takeBytes takeWord takeText takeValue shapeOf)

def byte : ByteReader UInt8 := fun
  | [] => .error .ended
  | b :: bs => .ok (b, bs)

def nothing : UInt8 := 0xC0

def number (kind : PackedKind) : Layout := do
  let c ← byte
  if c = nothing || c < 0x80 || 0xE0 ≤ c then return
  match NumForm.tagged.find? (·.tag = c) with
  | some form => let _ ← takeBytes form.width
  | none => throw (.unexpected kind c)

def word : Layout := number .word

def int : Layout := number .int

def bool : Layout := do
  let c ← byte
  if c ≠ nothing && c ≠ 0xC2 && c ≠ 0xC3 then throw (.unexpected .bool c)

def textLength : ByteReader Nat := do
  let c ← byte
  if c = nothing then return 0
  if 0xA0 ≤ c && c ≤ 0xBF then return (c - 0xA0).toNat
  let widths : List (UInt8 × Nat) :=
    [(0xD9, 1), (0xDA, 2), (0xDB, 4), (0xC4, 1), (0xC5, 2), (0xC6, 4)]
  match widths.lookup c with
  | some width => takeWord width
  | none => throw (.unexpected .text c)

def name : ByteReader Text := do takeText (← textLength)

def text : Layout := do
  let _ ← name

def times : Nat → Layout → Layout
  | 0, _ => return
  | n + 1, item => do
    item
    times n item

def list (item : Layout) : Layout := do
  let c ← byte
  if c = nothing then return
  match shapeOf c with
  | (.arr, length) => times (← length) item
  | _ => throw (.unexpected .list c)

def optional (l : Layout) : Layout := fun bs =>
  if bs.head? = some nothing then .ok ((), bs.drop 1) else l bs

def anything : Layout := do
  let _ ← takeValue (2 * (← get).length + 2)

def entries (fields : List (String × Layout)) : Nat → Layout
  | 0 => return
  | n + 1 => do
    let key ← name
    match fields.find? fun f => (f.1 : Text) = key with
    | some (_, l) => l
    | none => anything
    entries fields n

/-- A record: its fields by name, or all of them in order. An empty list is an empty record. -/
def record (fields : List (String × Layout)) : Layout := do
  let c ← byte
  if c = nothing then return
  match shapeOf c with
  | (.map, length) => entries fields (← length)
  | (.arr, length) =>
    let n ← tryCatch length fun _ => throw (.unexpected .record c)
    if n = 0 then return
    else if n ≠ fields.length then throw .fieldCount
    else fields.forM (·.2)
  | (.flat, _) => throw (.unexpected .record c)

/-- What stands in the way of a value of this layout. Bytes that hold one only end too early. -/
def fault (l : Layout) (bs : List UInt8) : PackedFault :=
  match l.run bs with
  | .error f => f
  | .ok _ => .ended

end Layout

end Lifecycle
