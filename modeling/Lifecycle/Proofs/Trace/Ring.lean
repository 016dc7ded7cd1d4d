import Mathlib.Tactic.Common
import Lifecycle.Trace.Ring

/-!
# What a ring keeps

After any events a ring holds the newest of those that its level keeps, as many as it has slots
(`Keeps`), and a snapshot gives them in the order in which they came.
-/

namespace Lifecycle

namespace Ring

variable {r : Ring} {seen : List TraceEvent}

/-- The ring was given `seen`, one after another. The oldest event stands first in the slots until
all of them are taken. -/
structure Keeps (r : Ring) (seen : List TraceEvent) : Prop where
  oldest : r.oldest < r.capacity
  size : r.slots.size = min seen.length r.capacity
  filling : r.slots.size < r.capacity → r.oldest = 0
  snapshot : r.snapshot = seen.drop (seen.length - r.capacity)

/-- The number of slots that is asked for; none or fewer stands for the usual number. -/
def slotsFor (capacity : Int) : Nat := if 0 < capacity then capacity.toNat else usualCapacity

theorem new_eq (capacity : Int) (level : TraceLevel) :
    new capacity level = if slotBytes * slotsFor capacity ≤ allBytes then
      .ok { level, capacity := slotsFor capacity } else .error .noRoom := by
  rw [new]
  rcases Nat.lt_or_ge allBytes (slotBytes * slotsFor capacity) with h | h
  · exact (if_pos h).trans (if_neg (Nat.not_le.2 h)).symm
  · exact (if_neg (Nat.not_lt.2 h)).trans (if_pos h).symm

theorem keeps_empty (capacity : Int) (level : TraceLevel) :
    Keeps { level, capacity := slotsFor capacity } [] where
  oldest := by
    change 0 < slotsFor capacity
    unfold slotsFor
    split_ifs
    · omega
    · decide
  size := by simp
  filling _ := rfl
  snapshot := by simp [Ring.snapshot]

/-- An event in the slot of the oldest one comes last from the slot after it onwards. -/
theorem drop_set_append_take {α : Type} {l : List α} {i : Nat} (hi : i < l.length) (a : α) :
    (l.set i a).drop ((i + 1) % l.length) ++ (l.set i a).take ((i + 1) % l.length) =
      (l.drop i ++ l.take i).tail ++ [a] := by
  have htail : (l.drop i ++ l.take i).tail = l.drop (i + 1) ++ l.take i := by
    rw [List.drop_eq_getElem_cons hi, List.cons_append, List.tail_cons]
  have hlen : (l.take i).length = i := List.length_take_of_le (Nat.le_of_lt hi)
  rw [htail, List.set_eq_take_append_cons_drop, if_pos hi]
  rcases Nat.lt_or_ge (i + 1) l.length with hlt | hge
  · rw [Nat.mod_eq_of_lt hlt, List.drop_append, List.take_append, hlen, Nat.add_sub_cancel_left,
      List.drop_eq_nil_of_le (by omega), List.take_of_length_le (by omega)]
    simp
  · rw [show i + 1 = l.length by omega, Nat.mod_self]
    simp

theorem Keeps.store (h : r.Keeps seen) (e : TraceEvent) : (r.store e).Keeps (seen ++ [e]) := by
  have hsize := h.size
  rw [Ring.store]
  split_ifs with hroom
  · have hold := h.filling hroom
    have hsnap := h.snapshot
    rw [Ring.snapshot, hold, Nat.sub_eq_zero_of_le (by omega)] at hsnap
    refine ⟨h.oldest, ?_, fun _ => hold, ?_⟩
    · simp only [Array.size_push, List.length_append, List.length_singleton]
      omega
    · rw [Ring.snapshot]
      dsimp only
      have hfit : (seen ++ [e]).length ≤ r.capacity := by
        simp only [List.length_append, List.length_singleton]
        omega
      rw [hold, Nat.sub_eq_zero_of_le hfit]
      simpa using hsnap
  · have hfull : r.slots.size = r.capacity := by omega
    refine ⟨Nat.mod_lt _ (Nat.zero_lt_of_lt h.oldest), ?_, fun hlt => ?_, ?_⟩
    · simp only [Array.size_setIfInBounds, List.length_append]
      omega
    · simp only [Array.size_setIfInBounds] at hlt
      exact absurd hlt hroom
    · have hset := drop_set_append_take (l := r.slots.toList) (i := r.oldest)
        (by rw [Array.length_toList, hfull]; exact h.oldest) e
      rw [Array.length_toList, hfull] at hset
      rw [Ring.snapshot]
      dsimp only
      rw [Array.toList_setIfInBounds, hset]
      change r.snapshot.tail ++ [e] = _
      have hlen : (seen ++ [e]).length - r.capacity = seen.length - r.capacity + 1 := by
        simp only [List.length_append, List.length_singleton]
        omega
      have := h.oldest
      rw [h.snapshot, List.tail_drop, hlen, List.drop_append_of_le_length (by omega)]

@[simp] theorem emit_level (e : TraceEvent) : (r.emit e).level = r.level := by
  rw [emit, Ring.store]
  split_ifs <;> rfl

@[simp] theorem emit_capacity (e : TraceEvent) : (r.emit e).capacity = r.capacity := by
  rw [emit, Ring.store]
  split_ifs <;> rfl

theorem Keeps.emit (h : r.Keeps seen) (e : TraceEvent) :
    (r.emit e).Keeps (seen ++ [e].filter r.level.keeps) := by
  rw [Ring.emit]
  split_ifs with hk
  · rw [List.filter_cons_of_pos hk]
    exact h.store e
  · rw [List.filter_cons_of_neg hk]
    simpa using h

theorem Keeps.emitAll (es : List TraceEvent) (h : r.Keeps seen) :
    (r.emitAll es).Keeps (seen ++ es.filter r.level.keeps) ∧
    (r.emitAll es).capacity = r.capacity := by
  induction es generalizing r seen with
  | nil => simpa [Ring.emitAll] using h
  | cons e es ih =>
    obtain ⟨hk, hc⟩ := ih (h.emit e)
    rw [emit_level, List.append_assoc, ← List.filter_append] at hk
    exact ⟨hk, hc.trans (emit_capacity e)⟩

/-- A ring with room for its slots gives back the newest of the events that its level keeps, as many
as it has slots, in the order in which they came. -/
theorem snapshot_emitAll (capacity : Int) (level : TraceLevel) (es : List TraceEvent) :
    let kept := es.filter level.keeps
    (new capacity level).map (fun r => (r.emitAll es).snapshot) =
      if slotBytes * slotsFor capacity ≤ allBytes then
        .ok (kept.drop (kept.length - min kept.length (slotsFor capacity)))
      else .error .noRoom := by
  intro kept
  obtain ⟨hkeeps, hsame⟩ := (keeps_empty capacity level).emitAll es
  have hsnap := hkeeps.snapshot
  rw [List.nil_append, hsame] at hsnap
  rw [new_eq, ← Nat.sub_eq_sub_min]
  split_ifs
  · exact congrArg Except.ok hsnap
  · rfl

end Ring

end Lifecycle
