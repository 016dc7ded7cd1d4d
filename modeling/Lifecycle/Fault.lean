import Lifecycle.Text

/-!
# Faults

A tree or a type table can be malformed: a child, a symbol or a table slot that an operation reads
may be missing. Operations on such data end in a `Fault` instead of a value, and so does what asks
for more room than there is.
-/

namespace Lifecycle

inductive Fault where
  | absent
  | unknownType
  /-- A printed form without end: a type that contains itself, a branch outside its parent. -/
  | endless
  | notAnObject
  | unknownField (name : Text)
  | noElements
  | noRoom
deriving DecidableEq

def Fault.message : Fault → Text
  | .absent | .noElements | .noRoom => "runtime error"
  | .unknownType => "types: invalid TypeID"
  | .endless => "no printed form"
  | .notAnObject => "testkit: not an object type"
  | .unknownField name => "testkit: unknown field " ++ name

def orAbsent {α : Type} : Option α → Except Fault α
  | some a => .ok a
  | none => .error .absent

theorem bind_eq_ok {ε α β : Type} {x : Except ε α} {f : α → Except ε β} {b : β} :
    (x >>= f) = .ok b ↔ ∃ a, x = .ok a ∧ f a = .ok b := by
  cases x with
  | error e => exact ⟨fun h => (by cases h), fun ⟨a, h, _⟩ => (by cases h)⟩
  | ok a => exact ⟨fun h => ⟨a, rfl, h⟩, fun ⟨_, h, hf⟩ => by cases h; exact hf⟩

/-- What a computation that was carried out has given. -/
theorem exists_ok {ε α : Type} {x : Except ε α} {p : α → Bool} (h : x.toOption.any p = true) :
    ∃ a, x = .ok a ∧ p a = true := by
  cases x with
  | error e => cases h
  | ok a => exact ⟨a, rfl, h⟩

theorem pure_eq_ok {ε α : Type} {a b : α} : (pure a : Except ε α) = .ok b ↔ a = b :=
  ⟨fun h => by cases h; rfl, fun h => by rw [h]; rfl⟩

end Lifecycle
