import Lifecycle.Proofs.Injection.Ends

/-!
# Operators of the table

Which symbols are operators, which types have nothing to destroy, and what a search for an operator
finds.
-/

namespace Lifecycle

/-- Kinds whose values own nothing and have no parts that could. -/
def TypeKind.isScalar : TypeKind → Bool
  | .seq | .string | .ref | .closure | .object | .array | .tuple | .distinct | .genericInst => false
  | _ => true

theorem SymFlags.has_union (f g x : SymFlags) : (f.union g).has x = (f.has x || g.has x) := by
  have h : (f.bits ||| g.bits) &&& x.bits = (f.bits &&& x.bits) ||| (g.bits &&& x.bits) := by
    apply UInt32.toBitVec_inj.1
    rw [UInt32.toBitVec_and, UInt32.toBitVec_or, UInt32.toBitVec_or, UInt32.toBitVec_and,
      UInt32.toBitVec_and, BitVec.and_or_distrib_right]
  rw [Bool.eq_iff_iff]
  simp [has, union, h, Decidable.imp_iff_not_or]

namespace OpState

/-- A symbol that the pass calls: an operator or a built-in. -/
def IsOperator (s : OpState) (op : SymRef) : Prop :=
  (∃ k, s.table.user.get? k = some op) ∨ (∃ k, s.table.synth.get? k = some op) ∨
    (∃ t, s.table.branch.get? t = some op) ∨ ∃ m, s.table.magics.get? m = some op

def IsHook (s : OpState) (op : SymRef) : Prop :=
  (∃ k, s.table.user.get? k = some op) ∨ (∃ k, s.table.synth.get? k = some op) ∨
    ∃ t, s.table.branch.get? t = some op

theorem IsHook.isOperator {s : OpState} : s.IsHook op → s.IsOperator op
  | .inl h => .inl h
  | .inr (.inl h) => .inr (.inl h)
  | .inr (.inr h) => .inr (.inr (.inl h))

/-- Values of the type are never destroyed: it has no parts, nobody declared an operator for it, and
nothing else is remembered. -/
def IsLifeless (types : TypeTable) (s : OpState) (t : TypeId) : Prop :=
  (types.kindOf t).isScalar = true ∧ s.table.hasUser t = false ∧
    s.table.lifetime.get? t ≠ some true
deriving Decidable

end OpState

namespace OpM

open OpState

variable {types : TypeTable} {s : OpState}

theorem parts_scalar (h : (types.kindOf t).isScalar = true) : parts types t = pure [] := by
  unfold parts
  rcases hl : types.lookup t with _ | d
  · rfl
  · have hk : types.kindOf t = d.kind := by rw [TypeTable.kindOf, hl]
    rw [hk] at h
    dsimp only
    rw [if_neg (by rintro hd; rw [hd] at h; cases h), TypeTable.components, hl]
    dsimp only
    split <;> first | rfl | (rename_i hd; rw [hd] at h; cases h)

def Found (r : OpResult) (s : OpState) : Prop := ∀ op, r = .ok (some op) → s.IsHook op

theorem found_error : Found (.error e) s := nofun

end OpM

end Lifecycle
