import Lifecycle.Proofs.Ownership.Balance
import Lifecycle.Proofs.Ownership.Flow

/-!
# What holds between two steps

`Holds` ties the ledger to the flow graph. The books are kept; a variable that is still awaited is
not empty; a local that holds a value has been touched before; what belongs to others is where it
was. `Place` is what is fixed about a piece of a routine: where its code stands in the graph, which
names are in scope, which slots are accounted for and which of them are the piece's own.
-/

namespace Lifecycle

namespace Fragment

open Lifecycle.Graph Ledger

def OwnsAll (S : Setting) (Γ : List SymRef) : Prop :=
  ∀ x ∈ Γ, S.isLocal x = true ∨ S.isTaken x = true

/-- `Γ` are the strings in scope, `D` the slots that are accounted for. -/
structure Room (S : Setting) (Γ D : List SymRef) : Prop where
  nodup : D.Nodup
  sub : ∀ x ∈ Γ, x ∈ D
  own : OwnsAll S Γ
  strange : ∀ x ∈ D, S.isForeign x = false

/-- `A` are the variables that are awaited, `L` those that may have been touched; `a` is on its
way. -/
structure Holds (S : Setting) (Γ D : List SymRef) (L A : SymRef → Prop) (a : Slot) (m : Ledger) :
    Prop where
  kept : Kept D a m
  live : ∀ x ∈ Γ, A x → m.slot x ≠ .empty
  early : ∀ x ∈ Γ, S.isLocal x = true → ∀ v, m.slot x = .full v → L x
  lent : ∀ x, S.isForeign x = true → m.slot x = if S.isTextVar x then .lent else .blank

section Holds

variable {S : Setting} {Γ Γ' D : List SymRef} {L L' A A' : SymRef → Prop} {a b : Slot}
  {m m' : Ledger} {x y : SymRef}

theorem Holds.update (h : Holds S Γ D L A a m) (hk : Kept D b m')
    (hs : ∀ y, y ≠ x → m'.slot y = m.slot y) (hf : S.isForeign x = false)
    (hΓ : ∀ y ∈ Γ', y ≠ x → y ∈ Γ) (hL : ∀ y, L y → L' y) (hA : ∀ y ∈ Γ', y ≠ x → A' y → A y)
    (hlive : x ∈ Γ' → A' x → m'.slot x ≠ .empty)
    (hearly : x ∈ Γ' → S.isLocal x = true → ∀ v, m'.slot x = .full v → L' x) :
    Holds S Γ' D L' A' b m' where
  kept := hk
  live y hy ha := by
    by_cases hyx : y = x
    · subst hyx
      exact hlive hy ha
    · rw [hs y hyx]
      exact h.live y (hΓ y hy hyx) (hA y hy hyx ha)
  early y hy hl v hv := by
    by_cases hyx : y = x
    · subst hyx
      exact hearly hy hl v hv
    · rw [hs y hyx] at hv
      exact hL y (h.early y (hΓ y hy hyx) hl v hv)
  lent y hy := by
    have hyx : y ≠ x := by
      rintro rfl
      rw [hf] at hy
      cases hy
    rw [hs y hyx]
    exact h.lent y hy

theorem Holds.same (h : Holds S Γ D L A a m) (hk : Kept D b m') (hs : m'.slot = m.slot) :
    Holds S Γ D L A b m' where
  kept := hk
  live := by
    rw [hs]
    exact h.live
  early := by
    rw [hs]
    exact h.early
  lent := by
    rw [hs]
    exact h.lent

theorem Holds.mono (h : Holds S Γ D L A a m) (hΓ : ∀ x ∈ Γ', x ∈ Γ) (hL : ∀ x, L x → L' x)
    (hA : ∀ x ∈ Γ', A' x → A x) : Holds S Γ' D L' A' a m where
  kept := h.kept
  live x hx ha := h.live x (hΓ x hx) (hA x hx ha)
  early x hx hl v hv := hL x (h.early x (hΓ x hx) hl v hv)
  lent := h.lent

theorem Holds.choice (h : Holds S Γ D L A a m) : Holds S Γ D L A a m.choice.2 :=
  h.same h.kept.choice (choice_slot m)

/-! ## Steps -/

theorem Holds.read (h : Holds S Γ D L A a m) (hr : Room S Γ D) (hx : x ∈ Γ) (ha : A x) :
    m.read x = (.held (m.slot x), m) :=
  read_of_isUsable (h.kept.isUsable (hr.sub x hx) (h.live x hx ha))

theorem Holds.read_foreign (h : Holds S Γ D L A a m) (hx : S.isForeign x = true) :
    m.read x = (.held (m.slot x), m) := by
  refine read_of_isUsable ?_
  rw [h.lent x hx]
  split_ifs <;> rfl

theorem Holds.putOther (h : Holds S Γ D L A a m) (hr : Room S Γ D) (hx : x ∉ D)
    (hf : S.isForeign x = false) : Holds S Γ D L A a (m.put x b) := by
  have hΓ : x ∉ Γ := fun hin => hx (hr.sub x hin)
  refine h.update (h.kept.putOther hx) (fun y hy => if_neg hy) hf (fun y hy _ => hy) (fun _ => id)
    (fun y _ _ => id) (fun hin => absurd hin hΓ) fun hin => absurd hin hΓ

theorem Holds.take (h : Holds S Γ D L A .blank m) (hr : Room S Γ D) (hx : x ∈ D)
    (hA : ∀ y ∈ Γ, A' y → A y) (hnot : x ∈ Γ → ¬ A' x) :
    Holds S Γ D L A' (m.slot x) (m.put x .empty) := by
  refine h.update (h.kept.take hr.nodup hx) (fun y hy => if_neg hy) (hr.strange x hx)
    (fun y hy _ => hy) (fun _ => id) (fun y hy _ => hA y hy) (fun hin ha => absurd ha (hnot hin)) ?_
  intro _ _ v hv
  rw [put_slot, if_pos rfl] at hv
  cases hv

theorem Holds.destroy (h : Holds S Γ D L A .blank m) (hr : Room S Γ D) (hx : x ∈ D)
    (hnot : x ∈ Γ → ¬ A x) : Holds S Γ D L A .blank (m.destroy x) := by
  refine h.update (h.kept.destroy hr.nodup hx) (fun y hy => ?_) (hr.strange x hx)
    (fun y hy _ => hy) (fun _ => id) (fun y _ _ => id) (fun hin ha => absurd ha (hnot hin)) ?_
  · rw [destroy_slot, if_neg hy]
  · intro _ _ v hv
    rw [destroy_slot, if_pos rfl] at hv
    cases hv

theorem Holds.store (h : Holds S Γ D L A u.flight m) (hr : Room S Γ D) (hx : x ∈ D)
    (he : ∀ v, m.slot x ≠ .full v) (hu : u.isOwn = true) (hΓ : ∀ y ∈ Γ', y ≠ x → y ∈ Γ)
    (hL : ∀ y, L y → L' y) (hLx : x ∈ Γ' → L' x) (hA : ∀ y ∈ Γ', y ≠ x → A' y → A y) :
    Holds S Γ' D L' A' .blank (m.store x u) := by
  refine h.update (h.kept.store hr.nodup hx he hu) (fun y hy => ?_) (hr.strange x hx) hΓ hL hA
    (fun _ _ => store_slot_ne_empty hu) fun hin _ _ _ => hLx hin
  rw [store_slot, if_neg hy]

theorem Holds.copyTo (h : Holds S Γ D L A .blank m) (hr : Room S Γ D) (hx : x ∈ D)
    (hΓ : ∀ y ∈ Γ', y ≠ x → y ∈ Γ) (hL : ∀ y, L y → L' y) (hLx : x ∈ Γ' → L' x)
    (hA : ∀ y ∈ Γ', y ≠ x → A' y → A y) : Holds S Γ' D L' A' .blank (m.copyTo x) := by
  refine h.update (h.kept.copyTo hr.nodup hx) (fun y hy => ?_) (hr.strange x hx) hΓ hL hA ?_
    fun hin _ _ _ => hLx hin
  · rw [copyTo_slot, if_neg hy]
  · intro _ _
    simp

theorem Holds.give (h : Holds S Γ D L A u.flight m) (hu : u.isOwn = true) :
    Holds S Γ D L A .blank (m.give u) :=
  h.same (h.kept.give hu) (give_slot m u)

end Holds

/-! ## Pieces of a routine -/

/-- A piece of a routine and what was made for it: its code, the sites of its accesses, the
variables declared in it, the numbers of its temporaries, and what the scope around has to declare
and to destroy for it. -/
structure Piece where
  code : List Instr
  sites : List Nat
  decls : List SymRef
  lo : Nat
  hi : Nat
  vars : List SymRef
  finals : List SymRef

namespace Piece

def Owns (p : Piece) (x : Nat) : Prop := x ∈ p.decls ∨ p.lo ≤ x ∧ x < p.hi

def append (p q : Piece) : Piece where
  code := p.code ++ q.code
  sites := p.sites ++ q.sites
  decls := p.decls ++ q.decls
  lo := p.lo
  hi := q.hi
  vars := p.vars ++ q.vars
  finals := p.finals ++ q.finals

end Piece

def Marks (c : List Instr) (x : SymRef) : Prop := ∃ y ∈ c, y.Touches x

structure Sound (S : Setting) (Γ : List SymRef) (p : Piece) : Prop where
  smooth : Smooth p.code
  accesses : ∀ y ∈ p.code, Accesses p.sites (Γ ++ p.decls) y
  isLocal : ∀ x ∈ p.decls, S.isLocal x = true
  known : S.symbols.all.size ≤ p.lo
  le : p.lo ≤ p.hi
  vars : ∀ x ∈ p.vars, p.Owns x
  finals : ∀ x ∈ p.finals, x ∈ p.vars
  nodup : p.finals.Nodup

structure Apart (p q : Piece) : Prop where
  sites : ∀ s ∈ p.sites, s ∉ q.sites
  decls : ∀ x ∈ p.decls, x ∉ q.decls
  next : p.hi ≤ q.lo

/-- Where a piece stands. Its variables are new here, and of the slots that are accounted for, its
own are those it wants destroyed. -/
structure Place (S : Setting) (g : Graph) (p : Piece) (Γ D : List SymRef) (L : SymRef → Prop)
    (i j : Nat) : Prop where
  stands : Stands g i j p.code p.sites
  room : Room S Γ D
  reach : g.Way (fun _ => True) 0 j
  unwritten : ∀ x ∈ p.decls, g.Way (¬ ·.Writes x) 0 i
  fresh : ∀ x ∈ p.decls, x ∉ Γ
  touched : ∀ x, L x → g.Touched x j
  finals : ∀ x ∈ p.finals, x ∈ D
  only : ∀ x : Nat, x ∈ D → p.Owns x → x ∈ p.finals

section Place

variable {S : Setting} {g : Graph} {p q : Piece} {Γ D E : List SymRef} {L : SymRef → Prop}
  {i j x : Nat}

theorem isKnown_of_isLocal (h : S.isLocal x = true) : x < S.symbols.all.size := by
  simp only [Setting.isLocal, Setting.isKnown, Bool.and_eq_true, decide_eq_true_eq] at h
  exact h.1.1.1.1

theorem isKnown_of_isTaken (h : S.isTaken x = true) : x < S.symbols.all.size := by
  simp only [Setting.isTaken, Setting.isKnown, Bool.and_eq_true, decide_eq_true_eq] at h
  exact h.1.1.1.1.1.1

theorem isForeign_of_isLocal (h : S.isLocal x = true) : S.isForeign x = false := by
  simp only [Setting.isLocal, Bool.and_eq_true, decide_eq_true_eq] at h
  simp [Setting.isForeign, h.1.1.1.2]

theorem isForeign_of_late (h : S.symbols.all.size ≤ x) : S.isForeign x = false := by
  simp [Setting.isForeign, Setting.isKnown, Nat.not_lt.2 h]

theorem Room.known (h : Room S Γ D) (hx : x ∈ Γ) : x < S.symbols.all.size :=
  (h.own x hx).elim isKnown_of_isLocal isKnown_of_isTaken

theorem Sound.not_writes (hp : Sound S Γ p) (hΓ : x ∉ Γ) (hx : x ∉ p.decls) :
    ∀ y ∈ p.code, ¬ y.Writes x := by
  rintro y hy ⟨n, rfl, hn⟩
  obtain ⟨h, z, rfl, -, hz⟩ := hp.accesses _ hy n rfl
  obtain rfl : z = x := by simpa [named] using hn
  exact (List.mem_append.1 (hz rfl)).elim hΓ hx

theorem Sound.way (hp : Sound S Γ p) (hi : g.HasAt i p.code)
    (hP : ∀ y ∈ p.code, P y) : g.Way P i (i + p.code.length) :=
  hp.smooth.tidy.through hp.smooth.stays hi hP

theorem Sound.owns_apart (hp : Sound S Γ p) (hq : Sound S Γ' q)
    (ha : Apart p q) (hx : p.Owns x) : ¬ q.Owns x := by
  have hk := hp.known
  have hl := hp.le
  have hn := ha.next
  rintro (hxq | hxq) <;> rcases hx with hxp | hxp
  · exact ha.decls x hxp hxq
  · have := isKnown_of_isLocal (hq.isLocal x hxq)
    omega
  · have := isKnown_of_isLocal (hp.isLocal x hxp)
    omega
  · omega

theorem Sound.avoids (hp : Sound S Γ p) (hs : ∀ s ∈ ss, s ∉ p.sites) : Avoids ss p.code :=
  avoids_of_accesses hp.accesses hs

theorem owns_append_left (hx : p.Owns x) (ha : Apart p q) (hq : q.lo ≤ q.hi) :
    (p.append q).Owns x := by
  have := ha.next
  rcases hx with hx | hx
  · exact .inl (List.mem_append_left _ hx)
  · exact .inr ⟨hx.1, by simp only [Piece.append]; omega⟩

theorem owns_append_right (hx : q.Owns x) (ha : Apart p q) (hp : p.lo ≤ p.hi) :
    (p.append q).Owns x := by
  have := ha.next
  rcases hx with hx | hx
  · exact .inl (List.mem_append_right _ hx)
  · exact .inr ⟨by simp only [Piece.append]; omega, hx.2⟩

theorem Place.anti (h : Place S g p Γ D L' i j) (hL : ∀ x, L x → L' x) : Place S g p Γ D L i j :=
  { h with touched := fun x hx => h.touched x (hL x hx) }

theorem Place.left (h : Place S g (p.append q) Γ D L i j) (hp : Sound S Γ p)
    (hq : Sound S Γ' q) (ha : Apart p q) : Place S g p Γ D L i j where
  stands := h.stands.left (fun s hs => List.mem_append_left _ hs) (hq.avoids ha.sites)
  room := h.room
  reach := h.reach
  unwritten x hx := h.unwritten x (List.mem_append_left _ hx)
  fresh x hx := h.fresh x (List.mem_append_left _ hx)
  touched := h.touched
  finals x hx := h.finals x (List.mem_append_left _ hx)
  only x hx ho := by
    rcases List.mem_append.1 (h.only x hx (owns_append_left ho ha hq.le)) with hf | hf
    · exact hf
    · exact absurd (hq.vars x (hq.finals x hf)) (hp.owns_apart hq ha ho)

theorem Place.room_right (h : Place S g (p.append q) Γ D L i j) (hp : Sound S Γ p)
    (he : ∀ x ∈ E, x ∈ p.decls) (hf : ∀ x ∈ E, x ∈ p.finals) : Room S (E ++ Γ) D where
  nodup := h.room.nodup
  sub x hx := by
    rcases List.mem_append.1 hx with hx | hx
    · exact h.finals x (List.mem_append_left _ (hf x hx))
    · exact h.room.sub x hx
  own x hx := by
    rcases List.mem_append.1 hx with hx | hx
    · exact .inl (hp.isLocal x (he x hx))
    · exact h.room.own x hx
  strange := h.room.strange

/-- The place of the second of two pieces. What the first one touches may be touched there. -/
theorem Place.right (h : Place S g (p.append q) Γ D L i j) (hp : Sound S Γ p)
    (hq : Sound S (E ++ Γ) q) (ha : Apart p q) (he : ∀ x ∈ E, x ∈ p.decls)
    (hf : ∀ x ∈ E, x ∈ p.finals) :
    Place S g q (E ++ Γ) D (fun x => L x ∨ Marks p.code x) (i + p.code.length)
      (j + p.code.length) where
  stands := h.stands.right (fun s hs => List.mem_append_right _ hs)
    (hp.avoids fun s hs hin => ha.sites s hin hs)
  room := h.room_right hp he hf
  reach := h.reach.trans (hp.way (HasAt.left h.stands.last) fun _ _ => trivial)
  unwritten x hx := by
    refine (h.unwritten x (List.mem_append_right _ hx)).trans ?_
    refine hp.way (HasAt.left h.stands.first) (hp.not_writes ?_ fun hin => ha.decls x hin hx)
    exact h.fresh x (List.mem_append_right _ hx)
  fresh x hx hin := by
    rcases List.mem_append.1 hin with hin | hin
    · exact ha.decls x (he x hin) hx
    · exact h.fresh x (List.mem_append_right _ hx) hin
  touched x hx := by
    rcases hx with hx | ⟨y, hy, ht⟩
    · exact (h.touched x hx).trans (hp.way (HasAt.left h.stands.last) fun _ _ => trivial)
    · exact hp.smooth.tidy.touched hp.smooth.stays (HasAt.left h.stands.last) h.reach hy ht
  finals x hx := h.finals x (List.mem_append_right _ hx)
  only x hx ho := by
    rcases List.mem_append.1 (h.only x hx (owns_append_right ho ha hp.le)) with hf' | hf'
    · exact absurd ho (hp.owns_apart hq ha (hp.vars x (hp.finals x hf')))
    · exact hf'

end Place

end Fragment

end Lifecycle
