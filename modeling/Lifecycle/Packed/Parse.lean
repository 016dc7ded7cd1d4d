import Lifecycle.Packed.Value

/-!
# Reading packed values

`Packed.parse` reads one value from the front of a byte list and returns what is left. Every value
takes at least one byte, so the length of the list bounds the recursion.
-/

namespace Lifecycle

inductive PackedKind where
  | word
  | int
  | bool
  | text
  | list
  | record
deriving DecidableEq

inductive PackedFault where
  | ended
  | cut
  | unknown (byte : UInt8)
  | unexpected (kind : PackedKind) (byte : UInt8)
  | fieldCount
deriving DecidableEq

def PackedKind.describe : PackedKind → Text
  | .word => "uint64"
  | .int => "int64"
  | .bool => "bool"
  | .text => "string/bytes length"
  | .list => "array length"
  | .record => "map length"

def PackedFault.message : PackedFault → Text
  | .ended => "EOF"
  | .cut => "unexpected EOF"
  | .unknown b => "msgpack: unknown code " ++ byteText b
  | .unexpected .record b =>
    "msgpack: unexpected code=" ++ byteText b ++ " decoding " ++ PackedKind.record.describe
  | .unexpected kind b => "msgpack: invalid code=" ++ byteText b ++ " decoding " ++ kind.describe
  | .fieldCount => "msgpack: number of fields in array-encoded struct has changed"
where
  byteText (b : UInt8) : Text := Text.hexOf (if b < 16 then 1 else 2) b.toNat

abbrev ByteReader := StateT (List UInt8) (Except PackedFault)

namespace Packed

def takeBytes (n : Nat) : ByteReader (List UInt8) := fun bs =>
  if n ≤ bs.length then .ok (bs.take n, bs.drop n)
  else .error (if bs.isEmpty then .ended else .cut)

def ofBigEndian (bs : List UInt8) : UInt64 := bs.foldl (fun n b => n <<< 8 ||| b.toUInt64) 0

def extendSign (width : Nat) (n : UInt64) : UInt64 :=
  match width with
  | 1 => n.toUInt8.toInt8.toInt64.toUInt64
  | 2 => n.toUInt16.toInt16.toInt64.toUInt64
  | 4 => n.toUInt32.toInt32.toInt64.toUInt64
  | _ => n

def takeWord (width : Nat) : ByteReader Nat := return (ofBigEndian (← takeBytes width)).toNat

def takeNum (form : NumForm) : ByteReader Packed := do
  let n := ofBigEndian (← takeBytes form.width)
  return .num form (if form.isSigned then extendSign form.width n else n)

def takeText (n : Nat) : ByteReader Text := return .ofList (← takeBytes n)

def takeLongText (width : Nat) : ByteReader Text := do takeText (← takeWord width)

def takeExt (n : Nat) : ByteReader Packed := return .ext (← takeBytes (n + 1))

def takeFlat (c : UInt8) : ByteReader Packed :=
  if c < 0x80 || 0xE0 ≤ c then return .num .fix (extendSign 1 c.toUInt64)
  else if 0xA0 ≤ c && c ≤ 0xBF then return .str (← takeText (c - 0xA0).toNat)
  else
    match NumForm.tagged.find? (·.tag = c) with
    | some form => takeNum form
    | none =>
      match c with
      | 0xC0 => return .nil
      | 0xC2 => return .bool false
      | 0xC3 => return .bool true
      | 0xC4 => return .bin (← takeLongText 1)
      | 0xC5 => return .bin (← takeLongText 2)
      | 0xC6 => return .bin (← takeLongText 4)
      | 0xC7 => do takeExt (← takeWord 1)
      | 0xC8 => do takeExt (← takeWord 2)
      | 0xC9 => do takeExt (← takeWord 4)
      | 0xCA => return .float (← takeBytes 4)
      | 0xCB => return .float (← takeBytes 8)
      | 0xD4 => takeExt 1
      | 0xD5 => takeExt 2
      | 0xD6 => takeExt 4
      | 0xD7 => takeExt 8
      | 0xD8 => takeExt 16
      | 0xD9 => return .str (← takeLongText 1)
      | 0xDA => return .str (← takeLongText 2)
      | 0xDB => return .str (← takeLongText 4)
      | _ => throw (.unknown c)

inductive Shape where
  | arr
  | map
  | flat

def shapeOf (c : UInt8) : Shape × ByteReader Nat :=
  if 0x90 ≤ c && c ≤ 0x9F then (.arr, return (c - 0x90).toNat)
  else if 0x80 ≤ c && c ≤ 0x8F then (.map, return (c - 0x80).toNat)
  else
    match c with
    | 0xDC => (.arr, takeWord 2)
    | 0xDD => (.arr, takeWord 4)
    | 0xDE => (.map, takeWord 2)
    | 0xDF => (.map, takeWord 4)
    | _ => (.flat, return 0)

mutual

def takeValue : Nat → ByteReader Packed
  | 0 => throw .ended
  | k + 1 => fun bs =>
    match bs with
    | [] => .error .ended
    | c :: bs =>
      match shapeOf c with
      | (.arr, length) => (do return .arr (← takeItems k (← length)) : ByteReader Packed) bs
      | (.map, length) => (do return .map (← takeEntries k (← length)) : ByteReader Packed) bs
      | (.flat, _) => takeFlat c bs

def takeItems : Nat → Nat → ByteReader (List Packed)
  | _, 0 => return []
  | 0, _ + 1 => throw .ended
  | k + 1, n + 1 => do
    let v ← takeValue k
    return v :: (← takeItems k n)

def takeEntries : Nat → Nat → ByteReader (List (Packed × Packed))
  | _, 0 => return []
  | 0, _ + 1 => throw .ended
  | k + 1, n + 1 => do
    let key ← takeValue k
    let v ← takeValue k
    return (key, v) :: (← takeEntries k n)

end

def parse (bs : List UInt8) : Except PackedFault (Packed × List UInt8) :=
  (takeValue (2 * bs.length + 2)).run bs

end Packed

end Lifecycle
