import Lifecycle.Proofs.Ownership.Machine

/-!
# The books of the ownership machine

`Kept D a m` is the law of conservation: every value that came into being is in exactly one place.
It is in one of the slots `D`, or among those that have ended, or it is `a`, the one that is on its
way.
-/

namespace Lifecycle

def Slot.holds (v : Nat) (a : Slot) : Nat := if a = .full v then 1 else 0

@[simp] theorem Slot.holds_empty (v : Nat) : Slot.holds v .empty = 0 := rfl

@[simp] theorem Slot.holds_blank (v : Nat) : Slot.holds v .blank = 0 := rfl

@[simp] theorem Slot.holds_full (v w : Nat) : Slot.holds v (.full w) = if w = v then 1 else 0 := by
  simp [holds]

/-- Something that can be stored or given away: neither nothing nor something of somebody else. -/
def Slot.isOwn : Slot → Bool
  | .blank | .full _ => true
  | .empty | .lent => false

/-- What of the value of an expression counts as on its way. A literal is no value yet. -/
def Val.flight : Val → Slot
  | .literal => .blank
  | .held a => a

def Val.isOwn : Val → Bool
  | .literal => true
  | .held a => a.isOwn

namespace Ledger

variable {m : Ledger} {D F : List SymRef} {x y : SymRef} {a b : Slot} {v : Nat}

@[simp] theorem put_slot : (m.put x a).slot y = if y = x then a else m.slot y := rfl

theorem put_comm (h : x ≠ y) : (m.put x a).put y b = (m.put y b).put x a := by
  unfold put
  simp only [Ledger.mk.injEq, and_true]
  funext z
  by_cases hz : z = x
  · subst hz
    simp [h]
  · simp [hz]

@[simp] theorem drop_slot (m : Ledger) (a : Slot) : (m.drop a).slot = m.slot := by cases a <;> rfl

@[simp] theorem choice_slot (m : Ledger) : m.choice.2.slot = m.slot := by
  unfold choice
  cases m.choices <;> rfl

@[simp] theorem destroy_slot : (m.destroy x).slot y = if y = x then .empty else m.slot y := by
  simp [destroy]

@[simp] theorem copyTo_slot :
    (m.copyTo x).slot y = if y = x then .full (m.drop (m.slot x)).next else m.slot y := by
  simp [copyTo, fill]

def owners (m : Ledger) (D : List SymRef) (v : Nat) : Nat := D.countP fun x => m.slot x = .full v

theorem owners_congr {m' : Ledger} (h : ∀ x ∈ D, m'.slot x = m.slot x) (v : Nat) :
    m'.owners D v = m.owners D v :=
  List.countP_congr fun x hx => by rw [h x hx]

theorem put_slot_of_not_mem (hx : x ∉ D) (hy : y ∈ D) : (m.put x a).slot y = m.slot y := by
  rw [put_slot, if_neg]
  rintro rfl
  exact hx hy

theorem owners_put_of_not_mem (hx : x ∉ D) (v : Nat) : (m.put x a).owners D v = m.owners D v :=
  owners_congr (fun _ hy => put_slot_of_not_mem hx hy) v

theorem owners_cons (m : Ledger) (x : SymRef) (D : List SymRef) (v : Nat) :
    m.owners (x :: D) v = (m.slot x).holds v + m.owners D v := by
  simp [owners, Slot.holds, List.countP_cons, Nat.add_comm]

theorem owners_append (m : Ledger) (D F : List SymRef) (v : Nat) :
    m.owners (D ++ F) v = m.owners D v + m.owners F v := List.countP_append

theorem owners_put : ∀ {D : List SymRef}, D.Nodup → x ∈ D → ∀ v,
    (m.put x a).owners D v + (m.slot x).holds v = m.owners D v + a.holds v
  | [], _, hx, _ => by cases hx
  | y :: D, hD, hx, v => by
    rw [owners_cons, owners_cons, put_slot]
    obtain ⟨hy, hD⟩ := List.nodup_cons.1 hD
    rcases List.mem_cons.1 hx with rfl | hx
    · rw [if_pos rfl, owners_put_of_not_mem hy]
      omega
    · rw [if_neg fun he => hy (by rwa [he])]
      have := owners_put hD hx v
      omega

theorem owners_pos (hx : x ∈ D) (hs : m.slot x = .full v) : 0 < m.owners D v :=
  List.countP_pos_iff.2 ⟨x, hx, by simp [hs]⟩

theorem owners_of_empty (h : ∀ x ∈ D, m.slot x = .empty) (v : Nat) : m.owners D v = 0 :=
  List.countP_eq_zero.2 fun x hx => by simp [h x hx]

/-- Every value is in one place: one of the slots `D`, among the values that have ended, or on its
way as `a`. -/
structure Kept (D : List SymRef) (a : Slot) (m : Ledger) : Prop where
  fine : m.misused = false
  once : ∀ v, m.owners D v + m.released.count v + a.holds v = if v < m.next then 1 else 0
  mine : ∀ x ∈ D, m.slot x ≠ .lent

theorem Kept.choice (h : Kept D a m) : Kept D a m.choice.2 := by
  unfold Ledger.choice
  cases m.choices <;> exact ⟨h.fine, h.once, h.mine⟩

theorem Kept.putOther (h : Kept D a m) (hx : x ∉ D) : Kept D a (m.put x b) where
  fine := h.fine
  once v := by
    rw [owners_put_of_not_mem hx]
    exact h.once v
  mine y hy := by
    rw [put_slot_of_not_mem hx hy]
    exact h.mine y hy

/-! ## Reading -/

theorem Kept.isUsable_flight (h : Kept D a m) (ha : a ≠ .empty) : m.isUsable a = true := by
  cases a with
  | empty => exact absurd rfl ha
  | blank => rfl
  | lent => rfl
  | full v =>
    have := h.once v
    rw [Slot.holds_full, if_pos rfl] at this
    have hc : m.released.count v = 0 := by
      split_ifs at this
      omega
    simp [isUsable, List.count_eq_zero.1 hc]

theorem Kept.isUsable (h : Kept D a m) (hx : x ∈ D) (he : m.slot x ≠ .empty) :
    m.isUsable (m.slot x) = true := by
  rcases hs : m.slot x with _ | _ | _ | v
  · exact absurd hs he
  · rfl
  · rfl
  · have := owners_pos hx hs
    have := h.once v
    have hc : m.released.count v = 0 := by split_ifs at this <;> omega
    simp [Ledger.isUsable, List.count_eq_zero.1 hc]

theorem read_of_isUsable (h : m.isUsable (m.slot x) = true) : m.read x = (.held (m.slot x), m) := by
  rw [read, if_pos h]

/-! ## Moving values -/

theorem Kept.take (h : Kept D .blank m) (hD : D.Nodup) (hx : x ∈ D) :
    Kept D (m.slot x) (m.put x .empty) where
  fine := h.fine
  once v := by
    have hp := owners_put (m := m) (a := .empty) hD hx v
    have ho := h.once v
    change _ + m.released.count v + _ = if v < m.next then 1 else 0
    simp only [Slot.holds_empty, Slot.holds_blank] at hp ho
    omega
  mine y hy := by
    rw [put_slot]
    split_ifs
    · simp
    · exact h.mine y hy

theorem Kept.place (h : Kept D a m) (hD : D.Nodup) (hx : x ∈ D) (he : ∀ v, m.slot x ≠ .full v)
    (ha : a ≠ .lent) : Kept D .blank (m.put x a) where
  fine := h.fine
  once v := by
    have hp := owners_put (m := m) (a := a) hD hx v
    have ho := h.once v
    have hz : (m.slot x).holds v = 0 := if_neg (he v)
    change _ + m.released.count v + _ = if v < m.next then 1 else 0
    simp only [Slot.holds_blank] at hp ⊢
    omega
  mine y hy := by
    rw [put_slot]
    split_ifs
    · exact ha
    · exact h.mine y hy

theorem Kept.fresh (h : Kept D .blank m) : Kept D (.full m.next) { m with next := m.next + 1 } where
  fine := h.fine
  once v := by
    have ho := h.once v
    simp only [Slot.holds_blank, Slot.holds_full] at ho ⊢
    change m.owners D v + _ + _ = _
    split_ifs at ho ⊢ <;> omega
  mine := h.mine

theorem Kept.drop (h : Kept D a m) (ha : a ≠ .lent) : Kept D .blank (m.drop a) := by
  cases a with
  | lent => exact absurd rfl ha
  | empty => exact ⟨h.fine, h.once, h.mine⟩
  | blank => exact h
  | full w =>
    refine ⟨h.fine, fun v => ?_, h.mine⟩
    have ho := h.once v
    change m.owners D v + (w :: m.released).count v + _ = if v < m.next then 1 else 0
    rw [List.count_cons]
    simp only [Slot.holds_full, Slot.holds_blank, beq_iff_eq] at ho ⊢
    omega

theorem Kept.destroy (h : Kept D .blank m) (hD : D.Nodup) (hx : x ∈ D) :
    Kept D .blank (m.destroy x) := by
  have hk := (h.take hD hx).drop (h.mine x hx)
  have he : (m.put x .empty).drop (m.slot x) = m.destroy x := by
    unfold Ledger.destroy
    cases m.slot x <;> rfl
  rwa [he] at hk

theorem Kept.fill (h : Kept D .blank m) (hD : D.Nodup) (hx : x ∈ D)
    (he : ∀ v, m.slot x ≠ .full v) : Kept D .blank (m.fill x) :=
  h.fresh.place hD hx he (by simp)

theorem Kept.copyTo (h : Kept D .blank m) (hD : D.Nodup) (hx : x ∈ D) :
    Kept D .blank (m.copyTo x) := by
  have hk := (h.destroy hD hx).fill hD hx (by simp)
  have he : (m.destroy x).fill x = m.copyTo x := by
    unfold Ledger.destroy Ledger.copyTo Ledger.fill Ledger.put
    simp only [Ledger.mk.injEq, and_true]
    funext y
    split_ifs <;> rfl
  rwa [he] at hk

theorem Kept.copyOut (h : Kept D .blank m) (hx : x ∉ D) (he : m.slot x = .empty) :
    Kept D ((m.copyTo x).slot x) (m.copyTo x) := by
  have hk := h.fresh.putOther (b := .full m.next) hx
  have hc : m.copyTo x = m.fill x := by rw [Ledger.copyTo, he, Ledger.drop]
  have hs : (m.fill x).slot x = .full m.next := if_pos rfl
  rw [hc, hs]
  exact hk

/-! ## Values of expressions -/

variable {u : Val}

theorem Kept.store (h : Kept D u.flight m) (hD : D.Nodup) (hx : x ∈ D)
    (he : ∀ v, m.slot x ≠ .full v) (hu : u.isOwn = true) : Kept D .blank (m.store x u) := by
  cases u with
  | literal => exact h.fill hD hx he
  | held a =>
    refine h.place hD hx he ?_
    rintro rfl
    cases hu

theorem Kept.give (h : Kept D u.flight m) (hu : u.isOwn = true) : Kept D .blank (m.give u) := by
  rcases u with _ | a
  · exact h.fresh.drop (by simp)
  · rcases a with _ | _ | _ | v
    · cases hu
    · exact h
    · cases hu
    · exact Kept.drop (a := .full v) h (by simp)

@[simp] theorem give_slot (m : Ledger) (u : Val) : (m.give u).slot = m.slot := by
  rcases u with _ | a
  · rfl
  · cases a <;> rfl

theorem store_slot : (m.store x u).slot y = if y = x then (m.store x u).slot x else m.slot y := by
  cases u <;> by_cases h : y = x <;> simp [store, fill]

theorem store_slot_ne_empty (hu : u.isOwn = true) : (m.store x u).slot x ≠ .empty := by
  cases u with
  | literal => simp [store, fill]
  | held a =>
    rintro he
    have : a = .empty := by simpa [store] using he
    subst this
    cases hu

/-! ## Opening and closing a scope -/

def clear (m : Ledger) (V : List SymRef) : Ledger := V.foldl (fun m x => m.put x .empty) m

def destroyAll (m : Ledger) (F : List SymRef) : Ledger := F.foldl destroy m

theorem clear_slot : ∀ (V : List SymRef) (m : Ledger),
    (m.clear V).slot y = if y ∈ V then .empty else m.slot y
  | [], m => rfl
  | x :: V, m => by
    change ((m.put x .empty).clear V).slot y = _
    rw [clear_slot V, put_slot]
    by_cases h : y = x <;> simp [h]

theorem destroyAll_slot : ∀ (F : List SymRef) (m : Ledger),
    (m.destroyAll F).slot y = if y ∈ F then .empty else m.slot y
  | [], m => rfl
  | x :: F, m => by
    change ((m.destroy x).destroyAll F).slot y = _
    rw [destroyAll_slot F, destroy_slot]
    by_cases h : y = x <;> simp [h]

theorem Kept.clear : ∀ {V : List SymRef} {m : Ledger}, Kept D a m → (∀ x ∈ V, x ∉ D) →
    Kept D a (m.clear V)
  | [], _, h, _ => h
  | x :: V, m, h, hV => by
    have hx : Kept D a (m.put x .empty) := h.putOther (hV x (by simp))
    exact Kept.clear (V := V) (m := m.put x .empty) hx fun y hy => hV y (by simp [hy])

theorem Kept.destroyAll (hD : D.Nodup) : ∀ {F : List SymRef} {m : Ledger}, Kept D .blank m →
    (∀ x ∈ F, x ∈ D) → Kept D .blank (m.destroyAll F)
  | [], _, h, _ => h
  | x :: F, m, h, hF => by
    have hx : Kept D .blank (m.destroy x) := h.destroy hD (hF x (by simp))
    exact Kept.destroyAll hD (F := F) (m := m.destroy x) hx fun y hy => hF y (by simp [hy])

theorem kept_append_iff (he : ∀ x ∈ F, m.slot x = .empty) : Kept (F ++ D) a m ↔ Kept D a m := by
  have ho : ∀ v, m.owners (F ++ D) v = m.owners D v := fun v => by
    rw [owners_append, owners_of_empty he, Nat.zero_add]
  constructor
  · intro h
    exact ⟨h.fine, fun v => by rw [← ho]; exact h.once v, fun x hx => h.mine x (by simp [hx])⟩
  · intro h
    refine ⟨h.fine, fun v => by rw [ho]; exact h.once v, fun x hx => ?_⟩
    rcases List.mem_append.1 hx with hx | hx
    · simp [he x hx]
    · exact h.mine x hx

theorem Kept.balanced (h : Kept [] .blank m) : m.Balanced := by
  refine ⟨h.fine, fun v hv => ?_⟩
  have := h.once v
  rw [if_pos hv] at this
  simpa [owners] using this

end Ledger

end Lifecycle
