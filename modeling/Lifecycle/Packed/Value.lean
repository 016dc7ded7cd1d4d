import Lifecycle.Text

/-!
# Packed values

Unit files are written in MessagePack: every value starts with a byte that says what it is, and
numbers are big-endian. A `Packed` value remembers how a number was written, so that writing it
again gives the same bytes.
-/

namespace Lifecycle

inductive NumForm where
  | fix
  | u8
  | u16
  | u32
  | u64
  | i8
  | i16
  | i32
  | i64
deriving DecidableEq

namespace NumForm

def tag : NumForm → UInt8
  | .fix => 0
  | .u8 => 0xCC
  | .u16 => 0xCD
  | .u32 => 0xCE
  | .u64 => 0xCF
  | .i8 => 0xD0
  | .i16 => 0xD1
  | .i32 => 0xD2
  | .i64 => 0xD3

def width : NumForm → Nat
  | .fix => 0
  | .u8 | .i8 => 1
  | .u16 | .i16 => 2
  | .u32 | .i32 => 4
  | .u64 | .i64 => 8

def isSigned : NumForm → Bool
  | .i8 | .i16 | .i32 | .i64 => true
  | _ => false

def tagged : List NumForm := [.u8, .u16, .u32, .u64, .i8, .i16, .i32, .i64]

end NumForm

/-- A value. A number is its 64 bits, with the sign carried into all of them. -/
inductive Packed where
  | nil
  | bool (b : Bool)
  | num (form : NumForm) (bits : UInt64)
  | float (bits : List UInt8)
  | str (t : Text)
  | bin (t : Text)
  | arr (items : List Packed)
  | map (entries : List (Packed × Packed))
  | ext (data : List UInt8)

namespace Packed

def bigEndian (width : Nat) (n : UInt64) : List UInt8 :=
  (List.range width).reverse.map fun i => (n >>> (8 * UInt64.ofNat i)).toUInt8

def numBytes (form : NumForm) (bits : UInt64) : List UInt8 :=
  match form with
  | .fix => [bits.toUInt8]
  | f => f.tag :: bigEndian f.width bits

def lengthBytes (small : Nat) (base : UInt8) (words : List (UInt8 × Nat)) (n : Nat) : List UInt8 :=
  if n < small then [base + .ofNat n]
  else
    match words.find? fun w => n < Nat.pow 256 w.2 with
    | some (tag, width) => tag :: bigEndian width (.ofNat n)
    | none => []

def textBytes (t : Text) : List UInt8 :=
  lengthBytes 32 0xA0 [(0xD9, 1), (0xDA, 2), (0xDB, 4)] t.size ++ t.toList

def arrayStart : Nat → List UInt8 := lengthBytes 16 0x90 [(0xDC, 2), (0xDD, 4)]

def mapStart : Nat → List UInt8 := lengthBytes 16 0x80 [(0xDE, 2), (0xDF, 4)]

mutual

def bytes : Packed → List UInt8
  | .nil => [0xC0]
  | .bool false => [0xC2]
  | .bool true => [0xC3]
  | .num form bits => numBytes form bits
  | .float bs => (if bs.length = 4 then 0xCA else 0xCB) :: bs
  | .str t => textBytes t
  | .bin t => lengthBytes 0 0 [(0xC4, 1), (0xC5, 2), (0xC6, 4)] t.size ++ t.toList
  | .arr items => arrayStart items.length ++ itemBytes items
  | .map entries => mapStart entries.length ++ entryBytes entries
  | .ext data =>
    lengthBytes 0 0 [(0xC7, 1), (0xC8, 2), (0xC9, 4)] (data.length - 1) ++ data

def itemBytes : List Packed → List UInt8
  | [] => []
  | v :: vs => v.bytes ++ itemBytes vs

def entryBytes : List (Packed × Packed) → List UInt8
  | [] => []
  | (k, v) :: es => k.bytes ++ v.bytes ++ entryBytes es

end

/-! ## Building values -/

def word8 (n : UInt8) : Packed := .num .u8 n.toUInt64

def word16 (n : UInt16) : Packed := .num .u16 n.toUInt64

def word32 (n : UInt32) : Packed := .num .u32 n.toUInt64

def int32 (n : Int32) : Packed := .num .i32 n.toInt64.toUInt64

def int64 (n : Int64) : Packed := .num .i64 n.toUInt64

def shortest (n : Int64) : Packed :=
  let i := n.toInt
  let form : NumForm :=
    if -32 ≤ i ∧ i < 128 then .fix
    else if 0 ≤ i then
      if i < 256 then .u8
      else if i < 65536 then .u16
      else if i < 4294967296 then .u32
      else .u64
    else if -128 ≤ i then .i8
    else if -32768 ≤ i then .i16
    else if -2147483648 ≤ i then .i32
    else .i64
  .num form n.toUInt64

def record (fields : List (String × Packed)) : Packed :=
  .map (fields.map fun (k, v) => (.str k, v))

def listed {α : Type} (f : α → Packed) (l : Option (List α)) : Packed :=
  match l with
  | some xs => .arr (xs.map f)
  | none => .nil

end Packed

end Lifecycle
