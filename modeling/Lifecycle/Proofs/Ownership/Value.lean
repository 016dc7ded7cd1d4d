import Lifecycle.Proofs.Ownership.Invariant

/-!
# Values of expressions

`Yields` says what the evaluation of an expression keeps and leaves behind. An expression that is
only looked at leaves nothing on its way; one whose value is taken over leaves a value that its
taker owns. Evaluation empties variables but never fills one that is not its own.
-/

namespace Lifecycle

namespace Fragment

open Lifecycle.Graph Ledger

/-- Variables outside the piece are as they were, or were emptied. -/
def Shrinks (p : Piece) (Γ : List SymRef) (m m' : Ledger) : Prop :=
  ∀ x : Nat, ¬ (p.lo ≤ x ∧ x < p.hi) → m'.slot x = m.slot x ∨ x ∈ Γ ∧ m'.slot x = .empty

/-- The piece is evaluated by `f`; with `own` its value goes to somebody who owns it then. -/
def Yields (S : Setting) (g : Graph) (Γ : List SymRef) (p : Piece) (own : Bool)
    (f : Ledger → Val × Ledger) : Prop :=
  ∀ ⦃D : List SymRef⦄ ⦃L : SymRef → Prop⦄ ⦃i j : Nat⦄ ⦃m : Ledger⦄, Place S g p Γ D L i j →
    Holds S Γ D L (g.Awaits · i) .blank m → (∀ x ∈ p.vars, m.slot x = .empty) →
    ∃ u m', f m = (u, m') ∧
      Holds S Γ D L (g.Awaits · (i + p.code.length)) (if own then u.flight else .blank) m' ∧
      (own = true → u.isOwn = true) ∧ Shrinks p Γ m m'

def Silent (c : List Instr) : Prop := ∀ y ∈ c, ∃ h x, y = .use (named h x)

theorem Silent.smooth : ∀ {c : List Instr}, Silent c → Smooth c
  | [], _ => smooth_nil
  | y :: c, hc => by
    obtain ⟨h, x, rfl⟩ := hc y (by simp)
    exact (smooth_access rfl).append (Silent.smooth fun z hz => hc z (by simp [hz]))

theorem Silent.not_writes (hc : Silent c) (hy : y ∈ c) (x : SymRef) : ¬ y.Writes x := by
  obtain ⟨h, z, rfl⟩ := hc y hy
  rintro ⟨n, hn, -⟩
  cases hn

section Yields

variable {S : Setting} {g : Graph} {p q : Piece} {Γ D : List SymRef} {L : SymRef → Prop}
  {a : Slot} {m m' m'' : Ledger} {f f' : Ledger → Val × Ledger} {h : Head} {i j x t : Nat}
  {own : Bool}

theorem Shrinks.refl (p : Piece) (Γ : List SymRef) (m : Ledger) : Shrinks p Γ m m :=
  fun _ _ => .inl rfl

theorem Shrinks.ne_full (hs : Shrinks p Γ m m') (hx : ¬ (p.lo ≤ x ∧ x < p.hi))
    (hm : ∀ v, m.slot x ≠ .full v) : ∀ v, m'.slot x ≠ .full v := by
  intro v hv
  rcases hs x hx with he | ⟨-, he⟩
  · exact hm v (he ▸ hv)
  · rw [he] at hv
    cases hv

theorem Shrinks.empty (hs : Shrinks p Γ m m') (hx : ¬ (p.lo ≤ x ∧ x < p.hi))
    (hm : m.slot x = .empty) : m'.slot x = .empty := by
  rcases hs x hx with he | ⟨-, he⟩
  · exact he.trans hm
  · exact he

theorem Shrinks.trans (h : Shrinks p Γ m m') (h' : Shrinks q Γ m' m'') (hn : p.hi ≤ q.lo)
    (hp : p.lo ≤ p.hi) (hq : q.lo ≤ q.hi) : Shrinks (p.append q) Γ m m'' := by
  intro x hx
  simp only [Piece.append] at hx
  rcases h' x (by omega) with he' | he'
  · rw [he']
    exact h x (by omega)
  · exact .inr he'

theorem Silent.advance (hc : Silent p.code) (hp : Place S g p Γ D L i j)
    (hm : Holds S Γ D L (g.Awaits · i) a m) : Holds S Γ D L (g.Awaits · (i + p.code.length)) a m :=
  hm.mono (fun _ => id) (fun _ => id) fun x _ ha => awaits_of_way
    (hc.smooth.tidy.through hc.smooth.stays hp.stands.first fun _ hy => hc.not_writes hy x) ha

/-! ## Names and literals -/

theorem Place.awaits (hp : Place S g p Γ D L i j)
    (hc : p.code = .use (named h x) :: c) : g.Awaits x i := by
  have hcode : g.code[i]? = some (.use (named h x)) := HasAt.head (hc ▸ hp.stands.first)
  exact awaits_of_reads hcode ⟨_, rfl, isSym_named⟩

/-- The piece starts with a read of the variable, or nobody can empty it. -/
def Readable (S : Setting) (Γ : List SymRef) (p : Piece) (x : SymRef) : Prop :=
  (x ∈ Γ ∧ ∃ h c, p.code = .use (named h x) :: c) ∨ S.isForeign x = true

theorem Readable.read (hx : Readable S Γ p x) (hp : Place S g p Γ D L i j)
    (hm : Holds S Γ D L (g.Awaits · i) a m) : m.read x = (.held (m.slot x), m) := by
  rcases hx with ⟨hx, h, c, hc⟩ | hx
  · exact hm.read hp.room hx (hp.awaits hc)
  · exact hm.read_foreign hx

theorem yields_name (hx : Readable S Γ p x) (hs : Silent p.code) :
    Yields S g Γ p false (·.read x) := by
  intro D L i j m hp hm _
  exact ⟨_, m, hx.read hp hm, hs.advance hp hm, by simp, .refl p Γ m⟩

theorem yields_bare (hx : S.isForeign x = true) (ht : S.isTextVar x = false) (hs : Silent p.code) :
    Yields S g Γ p true (·.read x) := by
  intro D L i j m hp hm _
  have hb : m.slot x = .blank := by simpa [ht] using hm.lent x hx
  refine ⟨_, m, hm.read_foreign hx, ?_, ?_, .refl p Γ m⟩
  · rw [hb]
    exact hs.advance hp hm
  · rw [hb]
    exact fun _ => rfl

theorem yields_const (hc : p.code = []) (hb : u.flight = .blank) (hu : u.isOwn = true) :
    Yields S g Γ p own fun m => (u, m) := by
  intro D L i j m hp hm _
  refine ⟨u, m, rfl, ?_, fun _ => hu, .refl p Γ m⟩
  rw [hc, hb]
  cases own <;> exact hm

/-! ## Taking a variable over -/

def takeOut (x : SymRef) (m : Ledger) : Val × Ledger := (.held (m.slot x), m.put x .empty)

/-- Behind its last read the variable is not awaited, so it can be emptied. -/
theorem yields_takeOut (hx : x ∈ Γ) (hc : p.code = [.use (named h x)]) (hsite : h.site ∈ p.sites)
    (hlast : LastRead g h x) : Yields S g Γ p true (takeOut x) := by
  intro D L i j m hp hm _
  have hs : Silent p.code := fun y hy => ⟨h, x, by simpa [hc] using hy⟩
  have hnot : ¬ g.Awaits x (i + p.code.length) := by
    obtain ⟨pc, hpc, hnot⟩ := hlast
    have hst := hp.stands
    rw [hc] at hst ⊢
    rw [hst.find?_eq rfl rfl hsite] at hpc
    cases hpc
    exact hnot
  have hxD := hp.room.sub x hx
  refine ⟨_, _, rfl, ?_, fun _ => ?_, fun y _ => ?_⟩
  · exact (hs.advance hp hm).take hp.room hxD (fun _ _ => id) fun _ => hnot
  · rcases hs' : m.slot x with _ | _ | _ | v
    · exact absurd hs' (hm.live x hx (hp.awaits hc))
    · rfl
    · exact absurd hs' (hm.kept.mine x hxD)
    · rfl
  · rw [put_slot]
    split_ifs with hyx
    · exact .inr ⟨hyx ▸ hx, rfl⟩
    · exact .inl rfl

def moveOut (x t : SymRef) (m : Ledger) : Val × Ledger :=
  (((m.read x).2.store t (m.read x).1).put x .empty).read t

theorem yields_moveOut (hx : x ∈ Γ) (hc : p.code = [.use (named h x)]) (hsite : h.site ∈ p.sites)
    (hlast : LastRead g h x)
    (ht : p.lo ≤ t ∧ t < p.hi) (htf : t ∉ p.finals) (hk : S.symbols.all.size ≤ p.lo) :
    Yields S g Γ p true (moveOut x t) := by
  intro D L i j m hp hm hv
  obtain ⟨u, m', he, htake, hu, hs⟩ := yields_takeOut hx hc hsite hlast hp hm hv
  cases he
  have htD : t ∉ D := fun hin => htf (hp.only t hin (.inr ht))
  have htx : t ≠ x := by
    rintro rfl
    exact htD (hp.room.sub t hx)
  have hput := htake.putOther (b := m.slot x) hp.room htD (isForeign_of_late (Nat.le_trans hk ht.1))
  have hslot : ((m.put x .empty).put t (m.slot x)).slot t = m.slot x := if_pos rfl
  refine ⟨.held (m.slot x), (m.put x .empty).put t (m.slot x), ?_, hput, hu, fun y hy => ?_⟩
  · rw [moveOut, hm.read hp.room hx (hp.awaits hc)]
    change ((m.put t (m.slot x)).put x .empty).read t = _
    rw [put_comm htx, read_of_isUsable, hslot]
    rw [hslot]
    exact hput.kept.isUsable_flight (hm.live x hx (hp.awaits hc))
  · have hyt : y ≠ t := by
      rintro rfl
      exact hy ht
    rw [put_slot, if_neg hyt]
    exact hs y hy

def copyOut (x t : SymRef) (m : Ledger) : Val × Ledger :=
  (((m.put t .empty).read x).2.copyTo t).read t

/-- The copy is a value of its own, which nobody accounts for yet. -/
theorem yields_copyOut (hx : Readable S Γ p x) (hs : Silent p.code) (ht : p.lo ≤ t ∧ t < p.hi)
    (htf : t ∉ p.finals) (hk : S.symbols.all.size ≤ p.lo) : Yields S g Γ p true (copyOut x t) := by
  intro D L i j m hp hm _
  have htD : t ∉ D := fun hin => htf (hp.only t hin (.inr ht))
  have hfor : S.isForeign t = false := isForeign_of_late (Nat.le_trans hk ht.1)
  have hput := hm.putOther (b := .empty) hp.room htD hfor
  have hslot : (m.put t .empty).slot t = .empty := if_pos rfl
  have hcopy := hput.kept.copyOut htD hslot
  have hΓ : t ∉ Γ := fun hin => htD (hp.room.sub t hin)
  have hout : Holds S Γ D L (g.Awaits · i) (((m.put t .empty).copyTo t).slot t)
      ((m.put t .empty).copyTo t) := by
    refine hput.update hcopy (fun y hy => ?_) hfor (fun y hy _ => hy) (fun _ => id)
      (fun _ _ _ => id) (fun hin => absurd hin hΓ) fun hin => absurd hin hΓ
    rw [copyTo_slot, if_neg hy]
  refine ⟨.held (((m.put t .empty).copyTo t).slot t), _, ?_, hs.advance hp hout, ?_, ?_⟩
  · rw [copyOut, hx.read hp hput, read_of_isUsable]
    exact hcopy.isUsable_flight (by simp)
  · intro _
    rw [copyTo_slot, if_pos rfl]
    rfl
  · intro y hy
    have hyt : y ≠ t := by
      rintro rfl
      exact hy ht
    rw [copyTo_slot, if_neg hyt, put_slot, if_neg hyt]
    exact .inl rfl

/-! ## Calls -/

/-- What a routine gives back: a new string, or something that owns nothing. -/
def result (text : Bool) (m : Ledger) : Val × Ledger :=
  if text then (.held (.full m.next), { m with next := m.next + 1 }) else (.held .blank, m)

theorem Yields.call (text : Bool) (hf : Yields S g Γ p false f) :
    Yields S g Γ p true fun m => result text (f m).2 := by
  intro D L i j m hp hm hv
  obtain ⟨u, m', he, hm', -, hs⟩ := hf hp hm hv
  dsimp only
  rw [he]
  cases text with
  | false => exact ⟨.held .blank, m', rfl, hm', fun _ => rfl, hs⟩
  | true => exact ⟨_, _, rfl, hm'.same hm'.kept.fresh rfl, fun _ => rfl, hs⟩

theorem Yields.drop (hf : Yields S g Γ p true f) (hb : ∀ m, (f m).1.flight = .blank) :
    Yields S g Γ p false f := by
  intro D L i j m hp hm hv
  obtain ⟨u, m', he, hm', -, hs⟩ := hf hp hm hv
  refine ⟨u, m', he, ?_, by simp, hs⟩
  have := hb m
  rw [he] at this
  rw [if_pos rfl, this] at hm'
  exact hm'

def keepIn (t : SymRef) (f : Ledger → Val × Ledger) (m : Ledger) : Val × Ledger :=
  ((f m).2.store t (f m).1).read t

def Piece.withTemp (p : Piece) (t hi : Nat) : Piece :=
  { p with hi, vars := p.vars ++ [t], finals := p.finals ++ [t] }

theorem Yields.keepIn (hf : Yields S g Γ p true f) (hp : Sound S Γ p)
    (hd : p.decls = []) (ht : p.hi ≤ t ∧ t < hi) :
    Yields S g Γ (p.withTemp t hi) false (keepIn t f) := by
  intro D L i j m hP hm hv
  have htD : t ∈ D := hP.finals t (by simp [Piece.withTemp])
  have hknown : S.symbols.all.size ≤ t := Nat.le_trans hp.known (Nat.le_trans hp.le ht.1)
  have hΓ : t ∉ Γ := fun hin => absurd (hP.room.known hin) (Nat.not_lt.2 hknown)
  have hP' : Place S g p Γ D L i j := by
    refine ⟨hP.stands, hP.room, hP.reach, hP.unwritten, hP.fresh, hP.touched,
      fun x hx => hP.finals x (by simp [Piece.withTemp, hx]), fun x hx ho => ?_⟩
    have hlt : p.lo ≤ x ∧ x < p.hi := ho.resolve_left (by simp [hd])
    have hin := hP.only x hx (.inr ⟨hlt.1, by simp only [Piece.withTemp]; omega⟩)
    refine (List.mem_append.1 hin).resolve_right fun hxt => ?_
    have hxt : x = t := List.mem_singleton.1 hxt
    omega
  obtain ⟨u, m', he, hm', hu, hs⟩ := hf hP' hm fun x hx => hv x (by simp [Piece.withTemp, hx])
  have hempty : m'.slot t = .empty := hs.empty (by omega) (hv t (by simp [Piece.withTemp]))
  have hst : Holds S Γ D L (g.Awaits · (i + p.code.length)) .blank (m'.store t u) :=
    hm'.store hP.room htD (by simp [hempty]) (hu rfl) (fun _ hy _ => hy) (fun _ => id)
      (fun hin => absurd hin hΓ) fun _ _ _ => id
  refine ⟨.held ((m'.store t u).slot t), m'.store t u, ?_, hst, by simp, fun y hy => ?_⟩
  · rw [Fragment.keepIn, he]
    exact read_of_isUsable (hst.kept.isUsable htD (store_slot_ne_empty (hu rfl)))
  · simp only [Piece.withTemp] at hy
    have hyt : y ≠ t := by
      have := hp.le
      omega
    rw [store_slot, if_neg hyt]
    exact hs y (by omega)

/-! ## Arguments -/

def andThen (give : Bool) (f f' : Ledger → Val × Ledger) (m : Ledger) : Val × Ledger :=
  f' (if give then (f m).2.give (f m).1 else (f m).2)

theorem Yields.andThen (hf : Yields S g Γ p own f) (hf' : Yields S g Γ q false f')
    (hp : Sound S Γ p) (hq : Sound S Γ q) (ha : Apart p q) (hd : q.decls = []) :
    Yields S g Γ (p.append q) false (andThen own f f') := by
  intro D L i j m hP hm hv
  obtain ⟨u, m', he, hm', hu, hs⟩ := hf (hP.left hp hq ha) hm fun x hx =>
    hv x (List.mem_append_left _ hx)
  have hgive : Holds S Γ D L (g.Awaits · (i + p.code.length)) .blank
      (if own then m'.give u else m') := by
    cases own with
    | false => exact hm'
    | true => exact Holds.give hm' (hu rfl)
  have hslot : (if own then m'.give u else m').slot = m'.slot := by cases own <;> simp
  have hright : Place S g q Γ D L (i + p.code.length) (j + p.code.length) :=
    (hP.right (E := []) hp hq ha (by simp) (by simp)).anti fun _ => .inl
  obtain ⟨u', m'', he', hm'', -, hs'⟩ := hf' hright hgive fun x hx => by
    have hx' : q.lo ≤ x ∧ x < q.hi := (hq.vars x hx).resolve_left (by simp [hd])
    have := ha.next
    rw [hslot]
    exact hs.empty (by omega) (hv x (List.mem_append_right _ hx))
  refine ⟨u', m'', ?_, ?_, by simp, ?_⟩
  · rw [Fragment.andThen, he]
    exact he'
  · simpa only [Piece.append, List.length_append, Nat.add_assoc] using hm''
  · refine Shrinks.trans hs ?_ ha.next hp.le hq.le
    intro x hx
    rw [← hslot]
    exact hs' x hx

end Yields

end Fragment

end Lifecycle
