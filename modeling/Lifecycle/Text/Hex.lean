import Lifecycle.Text

/-!
# Bytes as digits

Every byte is written as two hexadecimal digits, the letters small.
-/

namespace Lifecycle

namespace Text

def toHex (t : Text) : Text := concat (t.toList.map fun b => hexOf 2 b.toNat)

def hexValue (b : UInt8) : UInt8 := if b < 58 then b - 48 else b - 87

def bytesOfHex : List UInt8 → List UInt8
  | a :: b :: rest => (hexValue a * 16 + hexValue b) :: bytesOfHex rest
  | _ => []

def ofHex (t : Text) : Text := ofList (bytesOfHex t.toList)

end Text

end Lifecycle
