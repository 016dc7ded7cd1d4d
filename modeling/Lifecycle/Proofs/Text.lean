import Mathlib.Tactic.Common
import Lifecycle.Text

/-!
# Texts and their bytes

A text is its list of bytes, and lists of bytes are texts: the two views are inverse, and joining
texts joins their bytes.
-/

namespace Lifecycle

namespace Text

@[simp] theorem toList_ofList (bs : List UInt8) : (ofList bs).toList = bs := by
  simp [ofList, toList]

@[simp] theorem ofList_toList (t : Text) : ofList t.toList = t := by
  rw [ofList, toList, mk.injEq]
  apply ByteArray.ext
  simp

@[simp] theorem length_toList (t : Text) : t.toList.length = t.size := by
  simp [toList, size]

@[simp] theorem toList_append (t u : Text) : (t ++ u).toList = t.toList ++ u.toList := by
  change (ByteArray.data (t.bytes ++ u.bytes)).toList = _
  rfl

@[simp] theorem ofString_inj : ofString s = ofString t ↔ s = t := by
  rw [ofString, ofString, mk.injEq]
  exact String.toByteArray_inj

end Text

end Lifecycle
