/-!
# Lists that may be left out

A file may leave a list out or write an empty one. Both mean that there are no items, but each is
written back the way it was read.
-/

namespace Lifecycle

abbrev Listed (α : Type) := Option (List α)

namespace Listed

variable {α : Type}

def items (l : Listed α) : List α := l.getD []

def ofList (l : List α) : Listed α := if l.isEmpty then none else some l

@[simp] theorem items_ofList (l : List α) : items (ofList l) = l := by
  cases l <;> rfl

end Listed

end Lifecycle
