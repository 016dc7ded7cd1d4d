/-!
# Finite maps

A `Dict` is a list of keys with their values in which the last write to a key wins.
-/

namespace Lifecycle

structure Dict (κ : Type) (ν : Type) where
  entries : List (κ × ν) := []

namespace Dict

variable {κ ν : Type} [DecidableEq κ]

def empty : Dict κ ν := {}

def get? (d : Dict κ ν) (k : κ) : Option ν := (d.entries.find? (·.1 = k)).map (·.2)

def getD (d : Dict κ ν) (k : κ) (v : ν) : ν := (d.get? k).getD v

def contains (d : Dict κ ν) (k : κ) : Bool := (d.get? k).isSome

/-- The map with `k` set to `v`; a key that was there keeps its place. -/
def insert (d : Dict κ ν) (k : κ) (v : ν) : Dict κ ν := ⟨go d.entries⟩
where
  go : List (κ × ν) → List (κ × ν)
    | [] => [(k, v)]
    | e :: es => if e.1 = k then (k, v) :: es else e :: go es

def keys (d : Dict κ ν) : List κ := d.entries.map (·.1)

@[simp] theorem get?_empty (k : κ) : (empty : Dict κ ν).get? k = none := rfl

theorem get?_insert (d : Dict κ ν) (k j : κ) (v : ν) :
    (d.insert k v).get? j = if k = j then some v else d.get? j := by
  simp only [get?, insert]
  induction d.entries with
  | nil => by_cases h : k = j <;> simp [insert.go, h]
  | cons e es ih =>
    by_cases he : e.1 = k <;> by_cases h : k = j <;> by_cases hj : e.1 = j <;>
      simp_all [insert.go]

@[simp] theorem get?_insert_self (d : Dict κ ν) (k : κ) (v : ν) :
    (d.insert k v).get? k = some v := by simp [get?_insert]

end Dict

end Lifecycle
