import Lifecycle.Proofs.Ownership.Statement

/-!
# Scopes, branches and loops

A scope declares its variables, runs its body and destroys what is due (`Runs.enclose`). An arm of a
branch starts behind the fork and ends at its jump (`runs_arm`). A loop is in the graph three times
(`runs_loop`).
-/

namespace Lifecycle

namespace Fragment

open Lifecycle.Graph Ledger

section Control

variable {S : Setting} {g : Graph} {p q : Piece} {Γ E D : List SymRef} {L : SymRef → Prop}
  {m : Ledger} {f f' : Ledger → Ledger} {c : Head} {n : Node} {i j x y : Nat}

/-! ## Scopes -/

/-- The piece in a scope of its own: nothing is left to the scope around. -/
def Piece.closed (p : Piece) : Piece := { p with vars := [], finals := [] }

def inScope (p : Piece) (f : Ledger → Ledger) (m : Ledger) : Ledger :=
  (f (m.clear p.vars)).destroyAll p.finals.reverse

theorem Sound.closed (hp : Sound S Γ p) : Sound S Γ p.closed :=
  { hp with vars := by simp [Piece.closed], finals := by simp [Piece.closed]
            nodup := by simp [Piece.closed] }

theorem Sound.isForeign (hp : Sound S Γ p) (ho : p.Owns x) : S.isForeign x = false := by
  rcases ho with hx | hx
  · exact isForeign_of_isLocal (hp.isLocal x hx)
  · exact isForeign_of_late (Nat.le_trans hp.known hx.1)

theorem Place.not_owns (h : Place S g p.closed Γ D L i j) (hx : x ∈ D) : ¬ p.Owns x :=
  fun ho => by simpa [Piece.closed] using h.only x hx ho

theorem Place.inside (h : Place S g p.closed Γ D L i j) (hp : Sound S Γ p) :
    Place S g p Γ (p.finals ++ D) L i j where
  stands := h.stands
  room := by
    refine ⟨?_, fun x hx => List.mem_append_right _ (h.room.sub x hx), h.room.own, fun x hx => ?_⟩
    · refine List.nodup_append.2 ⟨hp.nodup, h.room.nodup, fun x hx y hy he => ?_⟩
      exact h.not_owns hy (he ▸ hp.vars x (hp.finals x hx))
    · rcases List.mem_append.1 hx with hx | hx
      · exact hp.isForeign (hp.vars x (hp.finals x hx))
      · exact h.room.strange x hx
  reach := h.reach
  unwritten := h.unwritten
  fresh := h.fresh
  touched := h.touched
  finals x hx := List.mem_append_left _ hx
  only x hx ho := (List.mem_append.1 hx).resolve_right fun hin => h.not_owns hin ho

theorem Place.holds_clear (h : Place S g p.closed Γ D L i j) (hp : Sound S Γ p)
    (hm : Holds S Γ D L A .blank m) : Holds S Γ (p.finals ++ D) L A .blank (m.clear p.vars) := by
  have hslot : ∀ {x}, ¬ p.Owns x → (m.clear p.vars).slot x = m.slot x := fun {x} hx => by
    rw [clear_slot, if_neg fun hin => hx (hp.vars x hin)]
  have hown : ∀ {x}, x ∈ Γ → ¬ p.Owns x := fun hx => h.not_owns (h.room.sub _ hx)
  refine ⟨?_, fun x hx ha => ?_, fun x hx hl v hv => ?_, fun x hx => ?_⟩
  · refine (kept_append_iff fun x hx => ?_).2 (hm.kept.clear fun x hx hin => ?_)
    · rw [clear_slot, if_pos (hp.finals x hx)]
    · exact h.not_owns hin (hp.vars x hx)
  · rw [hslot (hown hx)]
    exact hm.live x hx ha
  · rw [hslot (hown hx)] at hv
    exact hm.early x hx hl v hv
  · rw [hslot fun ho => by rw [hp.isForeign ho] at hx; cases hx]
    exact hm.lent x hx

theorem Runs.enclose (hf : Runs S g Γ E p f) (hp : Sound S Γ p) :
    Runs S g Γ [] p.closed (inScope p f) := by
  intro D L i j m hP hm _
  have hown : ∀ {x}, x ∈ Γ → ¬ p.Owns x := fun hx => hP.not_owns (hP.room.sub _ hx)
  have hfin : ∀ x ∈ p.finals, p.Owns x := fun x hx => hp.vars x (hp.finals x hx)
  have hclear := hP.holds_clear hp hm
  obtain ⟨hm', hframe⟩ := hf (hP.inside hp) hclear fun x hx => by rw [clear_slot, if_pos hx]
  have hkeep : ∀ {x}, ¬ p.Owns x → (inScope p f m).slot x = (f (m.clear p.vars)).slot x :=
    fun {x} hx => by
      rw [inScope, destroyAll_slot, if_neg fun hin => hx (hfin x (List.mem_reverse.1 hin))]
  refine ⟨⟨?_, fun x hx ha => ?_, fun x hx hl v hv => ?_, fun x hx => ?_⟩, fun x hx ho => ?_⟩
  · refine (kept_append_iff (F := p.finals) fun x hx => ?_).1 ?_
    · rw [inScope, destroyAll_slot, if_pos (List.mem_reverse.2 hx)]
    · exact hm'.kept.destroyAll (hP.inside hp).room.nodup fun x hx =>
        List.mem_append_left _ (List.mem_reverse.1 hx)
  · rw [hkeep (hown hx)]
    exact hm'.live x (List.mem_append_right _ hx) ha
  · rw [hkeep (hown hx)] at hv
    exact hm'.early x (List.mem_append_right _ hx) hl v hv
  · rw [hkeep fun ho => by rw [hp.isForeign ho] at hx; cases hx]
    exact hm'.lent x hx
  · rw [hkeep ho, hframe x hx ho, clear_slot, if_neg fun hin => ho (hp.vars x hin)]

/-! ## Parts of a closed piece -/

theorem Place.part {i' j' : Nat} {L' : SymRef → Prop} (h : Place S g q Γ D L i j)
    (hst : Stands g i' j' p.code p.sites) (hq : q.finals = []) (hp : p.finals = [])
    (ho : ∀ x, p.Owns x → q.Owns x) (hd : ∀ x ∈ p.decls, x ∈ q.decls)
    (hj : g.Way (fun _ => True) j j') (hi : ∀ x ∈ p.decls, g.Way (¬ ·.Writes x) i i')
    (hL : ∀ x, L' x → g.Touched x j') : Place S g p Γ D L' i' j' where
  stands := hst
  room := h.room
  reach := h.reach.trans hj
  unwritten x hx := (h.unwritten x (hd x hx)).trans (hi x hx)
  fresh x hx := h.fresh x (hd x hx)
  touched := hL
  finals x hx := by simp [hp] at hx
  only x hx hown := by simpa [hq] using h.only x hx (ho x hown)

structure Guard (S : Setting) (c : List Instr) (s : Nat) (x : SymRef) : Prop where
  silent : Silent c
  accesses : ∀ y ∈ c, Accesses [s] [] y
  foreign : S.isForeign x = true

theorem isForeign_of_isCondition (h : S.isCondition x = true) : S.isForeign x = true := by
  simp only [Setting.isCondition, Bool.and_eq_true, decide_eq_true_eq] at h
  obtain ⟨⟨hk, hp⟩, hb⟩ := h
  simp [Setting.isForeign, hk, Setting.isTextVar, TypeTable.isText, TypeTable.isBare, hb, hp,
    TypeKind.isScalar]

theorem guard_of_isCondition (h : S.isCondition x = true) : Guard S (readCode S c x) c.site x where
  silent _ hy := ⟨c, x, mem_readCode hy⟩
  accesses _ hy := accesses_cond hy
  foreign := isForeign_of_isCondition h

theorem Guard.avoids {c : List Instr} (hc : Guard S c s x) (hs : s ∉ ss) : Avoids ss c :=
  avoids_of_accesses hc.accesses fun t ht he => hs (by rwa [← List.mem_singleton.1 he])

theorem Guard.way {c : List Instr} (hc : Guard S c s x)
    (hi : g.HasAt i c) (hP : ∀ y ∈ c, P y) : g.Way P i (i + c.length) :=
  hc.silent.smooth.tidy.through hc.silent.smooth.stays hi hP

structure Passes (n : Node) (r : List Instr) (P : Instr → Prop) : Prop where
  cond : ∀ y ∈ r, P y
  fork : ∀ d, P (.fork n d)
  goto : ∀ k, P (.goto n k)

theorem passes_any : Passes n r fun _ => True :=
  ⟨fun _ _ => trivial, fun _ => trivial, fun _ => trivial⟩

theorem Guard.passes (hr : Guard S r s x) : Passes n r (¬ ·.Writes y) where
  cond _ hz := hr.silent.not_writes hz y
  fork _ := by
    rintro ⟨_, h, -⟩
    cases h
  goto _ := by
    rintro ⟨_, h, -⟩
    cases h

/-! ## Branches -/

section Arm

variable {r : List Instr} {s : Nat} {P : Instr → Prop}

/-- A condition with code `r` at site `s`, a piece for where it holds and one for where it fails. -/
def Piece.arm (n : Node) (r : List Instr) (s : Nat) (p q : Piece) : Piece where
  code := r ++ armCode n p.code q.code
  sites := s :: (p.sites ++ q.sites)
  decls := p.decls ++ q.decls
  lo := p.lo
  hi := q.hi
  vars := []
  finals := []

def branch (x : SymRef) (f f' : Ledger → Ledger) (m : Ledger) : Ledger :=
  if (m.read x).2.choice.1 then f (m.read x).2.choice.2 else f' (m.read x).2.choice.2

theorem Sound.arm (hp : Sound S Γ p) (hq : Sound S Γ q) (ha : Apart p q) (hr : Guard S r s x) :
    Sound S Γ (Piece.arm n r s p q) where
  smooth := hr.silent.smooth.append (hp.smooth.arm n hq.smooth)
  accesses y hy m hm := by
    rcases List.mem_append.1 hy with hy | hy
    · exact (hr.accesses y hy).mono (by simp [Piece.arm]) (by simp) m hm
    rcases mem_armCode hy hm with hy | hy
    · exact (hp.accesses y hy).mono (by simp +contextual [Piece.arm])
        (by simp +contextual [Piece.arm, or_imp]) m hm
    · exact (hq.accesses y hy).mono (by simp +contextual [Piece.arm])
        (by simp +contextual [Piece.arm, or_imp]) m hm
  isLocal y hy := (List.mem_append.1 hy).elim (hp.isLocal y) (hq.isLocal y)
  known := hp.known
  le := Nat.le_trans hp.le (Nat.le_trans ha.next hq.le)
  vars y hy := by cases hy
  finals y hy := by cases hy
  nodup := List.nodup_nil

theorem length_arm : (Piece.arm n r s p q).code.length =
    r.length + (p.code.length + 2) + q.code.length := by
  simp only [Piece.arm, armCode, List.length_append, List.length_cons]
  omega

theorem HasAt.test (h : g.HasAt i (Piece.arm n r s p q).code) :
    g.HasAt (i + r.length) (armCode n p.code q.code) :=
  HasAt.right (c := r) h

theorem Guard.way_then (hr : Guard S r s x) (h : g.HasAt i (Piece.arm n r s p q).code)
    (hP : Passes n r P) : g.Way P i (i + (r.length + 1)) :=
  (hr.way (HasAt.left h) hP.cond).trans (way_one (HasAt.test h).head (hP.fork _) (.stay _ _))

theorem Guard.way_else (hr : Guard S r s x) (h : g.HasAt i (Piece.arm n r s p q).code)
    (hP : Passes n r P) : g.Way P i (i + (r.length + (p.code.length + 2))) := by
  have := way_one (HasAt.test h).head (hP.fork _) (.branch _ _)
  rw [Nat.add_assoc] at this
  exact (hr.way (HasAt.left h) hP.cond).trans this

theorem way_out (h : g.HasAt i (Piece.arm n r s p q).code) (hP : Passes n r P) :
    g.Way P (i + (r.length + 1) + p.code.length) (i + (Piece.arm n r s p q).code.length) := by
  have hjump : g.HasAt (i + r.length + 1 + p.code.length)
      (.goto n (.by (q.code.length + 1)) :: q.code) := HasAt.right (HasAt.test h).tail
  have := way_one hjump.head (hP.goto _) (.goto _ _)
  rw [length_arm]
  convert this using 1 <;> omega

theorem Place.first (h : Place S g (Piece.arm n r s p q) Γ D L i j) (hq : Sound S Γ q)
    (ha : Apart p q) (hpv : p.finals = []) (hr : Guard S r s x) (hsp : s ∉ p.sites) :
    Place S g p Γ D L (i + (r.length + 1)) (j + (r.length + 1)) := by
  have hcode : (Piece.arm n r s p q).code = (r ++ [.fork n (p.code.length + 2)]) ++
      (p.code ++ .goto n (.by (q.code.length + 1)) :: q.code) := by simp [Piece.arm, armCode]
  have hst : Stands g (i + (r.length + 1)) (j + (r.length + 1)) p.code p.sites := by
    have : Stands g _ _ p.code p.sites := h.stands.part hcode hcode
      (fun t ht => by simp [Piece.arm, ht])
      ((hr.avoids hsp).append (.cons rfl avoids_nil)) (.cons rfl (hq.avoids ha.sites))
    simpa using this
  refine h.part hst rfl hpv (fun y hy => ?_) (fun y hy => ?_) (hr.way_then h.stands.last passes_any)
    (fun y _ => hr.way_then h.stands.first hr.passes) fun y hy => ?_
  · exact owns_append_left hy ha hq.le
  · exact List.mem_append_left _ hy
  · exact (h.touched y hy).trans (hr.way_then h.stands.last passes_any)

theorem Place.second (h : Place S g (Piece.arm n r s p q) Γ D L i j) (hp : Sound S Γ p)
    (ha : Apart p q) (hqv : q.finals = []) (hr : Guard S r s x) (hsq : s ∉ q.sites) :
    Place S g q Γ D L (i + (r.length + (p.code.length + 2)))
      (j + (r.length + (p.code.length + 2))) := by
  have hcode : (Piece.arm n r s p q).code = (r ++ .fork n (p.code.length + 2) :: (p.code ++
      [.goto n (.by (q.code.length + 1))])) ++ (q.code ++ []) := by simp [Piece.arm, armCode]
  have hst : Stands g (i + (r.length + (p.code.length + 2)))
      (j + (r.length + (p.code.length + 2))) q.code q.sites := by
    have : Stands g _ _ q.code q.sites := h.stands.part hcode hcode
      (fun t ht => by simp [Piece.arm, ht])
      ((hr.avoids hsq).append (.cons rfl ((hp.avoids fun t ht hin => ha.sites t hin ht).append
        (.cons rfl avoids_nil)))) avoids_nil
    simpa using this
  refine h.part hst rfl hqv (fun y hy => ?_) (fun y hy => ?_) (hr.way_else h.stands.last passes_any)
    (fun y _ => hr.way_else h.stands.first hr.passes) fun y hy => ?_
  · exact owns_append_right hy ha hp.le
  · exact List.mem_append_right _ hy
  · exact (h.touched y hy).trans (hr.way_else h.stands.last passes_any)

theorem runs_arm (hf : Runs S g Γ [] p f) (hf' : Runs S g Γ [] q f') (hp : Sound S Γ p)
    (hq : Sound S Γ q) (hpv : p.vars = [] ∧ p.finals = []) (hqv : q.vars = [] ∧ q.finals = [])
    (ha : Apart p q) (hr : Guard S r s x) (hsp : s ∉ p.sites) (hsq : s ∉ q.sites) :
    Runs S g Γ [] (Piece.arm n r s p q) (branch x f f') := by
  intro D L i j m hP hm _
  have hfirst := hP.stands.first
  -- on either way only what was awaited in front of the condition is awaited
  have hin : ∀ {k}, (∀ y, g.Way (¬ ·.Writes y) i (i + k)) →
      Holds S Γ D L (g.Awaits · (i + k)) .blank m.choice.2 := fun hway =>
    hm.choice.mono (fun _ => id) (fun _ => id) fun y _ => awaits_of_way (hway y)
  have hown : ∀ {y}, ¬ (Piece.arm n r s p q).Owns y → ¬ p.Owns y ∧ ¬ q.Owns y := fun ho =>
    ⟨fun h => ho (owns_append_left h ha hq.le), fun h => ho (owns_append_right h ha hp.le)⟩
  rw [branch, hm.read_foreign hr.foreign]
  split_ifs
  · obtain ⟨hm', hframe⟩ := hf (hP.first hq ha hpv.2 hr hsp)
      (hin fun y => hr.way_then hfirst hr.passes) (by simp [hpv.1])
    refine ⟨hm'.mono (fun _ => id) ?_ fun y _ => awaits_of_way (way_out hfirst hr.passes), ?_⟩
    · exact fun y hy => hy.imp_right fun ⟨z, hz, ht⟩ => ⟨z, by simp [Piece.arm, armCode, hz], ht⟩
    · intro y hy ho
      rw [hframe y hy (hown ho).1, choice_slot]
  · obtain ⟨hm', hframe⟩ := hf' (hP.second hp ha hqv.2 hr hsq)
      (hin fun y => hr.way_else hfirst hr.passes) (by simp [hqv.1])
    refine ⟨hm'.mono (fun _ => id) ?_ fun y _ hy => ?_, ?_⟩
    · exact fun y hy => hy.imp_right fun ⟨z, hz, ht⟩ => ⟨z, by simp [Piece.arm, armCode, hz], ht⟩
    · rwa [length_arm, ← Nat.add_assoc] at hy
    · intro y hy ho
      rw [hframe y hy (hown ho).2, choice_slot]

end Arm

/-! ## Loops -/

section Rounds

variable {r b : List Instr} {s k : Nat} {P : Instr → Prop}

def Piece.rounds (n : Node) (r : List Instr) (s : Nat) (p : Piece) : Piece where
  code := roundsCode n r p.code 3
  sites := s :: p.sites
  decls := p.decls
  lo := p.lo
  hi := p.hi
  vars := []
  finals := []

def repeatOn (x : SymRef) (f : Ledger → Ledger) (m : Ledger) : Ledger :=
  loop (fun m => (m.read x).2) f (m.choices.length + 1) m

theorem Sound.rounds (hp : Sound S Γ p) (hr : Guard S r s x) :
    Sound S Γ (Piece.rounds n r s p) where
  smooth := hr.silent.smooth.rounds n hp.smooth 3
  accesses y hy m hm := by
    rcases mem_roundsCode (by rintro d rfl; cases hm) hy with hy | hy
    · exact (hr.accesses y hy).mono (by simp [Piece.rounds]) (by simp) m hm
    · exact (hp.accesses y hy).mono (by simp +contextual [Piece.rounds]) (fun _ => id) m hm
  isLocal := hp.isLocal
  known := hp.known
  le := hp.le
  vars y hy := by cases hy
  finals y hy := by cases hy
  nodup := List.nodup_nil

theorem HasAt.round (h : g.HasAt i (roundsCode n r b (k + 1))) :
    g.HasAt (i + r.length) (.fork n (b.length + (roundsCode n r b k).length + 1) ::
      (b ++ roundsCode n r b k)) := by
  have hcode : roundsCode n r b (k + 1) =
      r ++ .fork n (b.length + (roundsCode n r b k).length + 1) :: (b ++ roundsCode n r b k) := by
    simp [roundsCode]
  exact HasAt.right (hcode ▸ h)

theorem HasAt.body (h : g.HasAt i (roundsCode n r b (k + 1))) : g.HasAt (i + (r.length + 1)) b :=
  HasAt.left (HasAt.round h).tail

theorem HasAt.again (h : g.HasAt i (roundsCode n r b (k + 1))) :
    g.HasAt (i + (r.length + 1 + b.length)) (roundsCode n r b k) := by
  have := HasAt.right (HasAt.round h).tail
  rwa [Nat.add_assoc, Nat.add_assoc, ← Nat.add_assoc r.length] at this

theorem Guard.way_round (hr : Guard S r s x) (h : g.HasAt i (roundsCode n r b (k + 1)))
    (hP : Passes n r P) : g.Way P i (i + (r.length + 1)) :=
  (hr.way (HasAt.left (HasAt.left h)) hP.cond).trans
    (way_one (HasAt.round h).head (hP.fork _) (.stay _ _))

theorem Guard.way_done (hr : Guard S r s x) (h : g.HasAt i (roundsCode n r b k))
    (hP : Passes n r P) : g.Way P i (i + (roundsCode n r b k).length) := by
  cases k with
  | zero => exact .refl _
  | succ k =>
    have := (hr.way (HasAt.left (HasAt.left h)) hP.cond).trans
      (way_one (HasAt.round h).head (hP.fork _) (.branch _ _))
    convert this using 1
    simp only [roundsCode, List.length_append, List.length_cons]
    omega

theorem Sound.way_body (hp : Sound S Γ p) (hr : Guard S r s x)
    (h : g.HasAt i (roundsCode n r p.code (k + 1))) :
    g.Way (fun _ => True) i (i + (r.length + 1 + p.code.length)) := by
  rw [← Nat.add_assoc]
  exact (hr.way_round h passes_any).trans (hp.way (HasAt.body h) fun _ _ => trivial)

/-- The body of a loop stands in the graph three times. In its last copy all that it touches may
have been touched. -/
theorem Place.round (h : Place S g (Piece.rounds n r s p) Γ D L i j) (hp : Sound S Γ p)
    (hpv : p.finals = []) (hr : Guard S r s x) (hs : s ∉ p.sites) :
    Place S g p Γ D (fun y => L y ∨ Marks p.code y) (i + (r.length + 1))
      (j + (2 * (r.length + 1 + p.code.length) + (r.length + 1))) := by
  have hfirst : g.HasAt i (roundsCode n r p.code 3) := h.stands.first
  have h3 : g.HasAt j (roundsCode n r p.code 3) := h.stands.last
  have h2 := HasAt.again h3
  have h1 := HasAt.again h2
  have hway3 := hp.way_body hr h3
  have hway2 : g.Way (fun _ => True) (j + (r.length + 1 + p.code.length))
      (j + (2 * (r.length + 1 + p.code.length) + (r.length + 1))) := by
    have := (hp.way_body hr h2).trans (hr.way_round h1 passes_any)
    convert this using 1
    omega
  let fork (k : Nat) : Instr := .fork n (p.code.length + (roundsCode n r p.code k).length + 1)
  have hcode : (Piece.rounds n r s p).code = (r ++ [fork 2]) ++
      (p.code ++ roundsCode n r p.code 2) := by simp [Piece.rounds, roundsCode, fork]
  have hcode' : (Piece.rounds n r s p).code = (r ++ fork 2 :: p.code ++ (r ++ fork 1 :: p.code) ++
      (r ++ [fork 0])) ++ (p.code ++ []) := by simp [Piece.rounds, roundsCode, fork]
  have hst : Stands g (i + (r.length + 1))
      (j + (2 * (r.length + 1 + p.code.length) + (r.length + 1))) p.code p.sites := by
    have : Stands g _ _ p.code p.sites := h.stands.part hcode hcode'
      (fun t ht => by simp [Piece.rounds, ht])
      ((hr.avoids hs).append (.cons rfl avoids_nil)) avoids_nil
    convert this using 1
    · simp
    · simp only [List.length_append, List.length_cons, List.length_nil]
      omega
  refine h.part hst rfl hpv (fun _ => id) (fun _ => id) (hway3.trans hway2)
    (fun y _ => hr.way_round hfirst hr.passes) ?_
  rintro y (hy | ⟨z, hz, ht⟩)
  · exact (h.touched y hy).trans (hway3.trans hway2)
  · have := hp.smooth.tidy.touched hp.smooth.stays (HasAt.body h3)
      (h.reach.trans (hr.way_round h3 passes_any)) hz ht
    rw [Nat.add_assoc] at this
    exact this.trans hway2

theorem runs_loop (hf : Runs S g Γ [] p f) (hp : Sound S Γ p) (hpv : p.vars = [] ∧ p.finals = [])
    (hr : Guard S r s x) (hs : s ∉ p.sites) :
    Runs S g Γ [] (Piece.rounds n r s p) (repeatOn x f) := by
  intro D L i j m hP hm _
  have hbody := hP.round hp hpv.2 hr hs
  have h3 : g.HasAt i (roundsCode n r p.code 3) := hP.stands.first
  have h2 := HasAt.again h3
  have hend : i + (r.length + 1 + p.code.length) + (roundsCode n r p.code 2).length =
      i + (Piece.rounds n r s p).code.length := by
    simp only [Piece.rounds, length_roundsCode]
    omega
  -- between two rounds all is awaited that a round or what follows the loop awaits
  have hround : ∀ k m, Holds S Γ D (fun y => L y ∨ Marks p.code y)
      (fun y => g.Awaits y (i + (r.length + 1)) ∨
        g.Awaits y (i + (Piece.rounds n r s p).code.length)) .blank m →
      Holds S Γ D (fun y => L y ∨ Marks p.code y)
        (fun y => g.Awaits y (i + (r.length + 1)) ∨
          g.Awaits y (i + (Piece.rounds n r s p).code.length)) .blank
        (loop (fun m => (m.read x).2) f k m) ∧
      ∀ y, y ∉ Γ → ¬ p.Owns y → (loop (fun m => (m.read x).2) f k m).slot y = m.slot y := by
    intro k
    induction k with
    | zero => exact fun m hm => ⟨hm, fun _ _ _ => rfl⟩
    | succ k ih =>
      intro m hm
      rw [loop, hm.read_foreign hr.foreign]
      dsimp only
      split_ifs
      · obtain ⟨hm', hframe⟩ := hf hbody (hm.choice.mono (fun _ => id) (fun _ => id) fun _ _ =>
          .inl) (by simp [hpv.1])
        obtain ⟨hm'', hframe'⟩ := ih _ <| hm'.mono (fun _ => id)
          (fun y hy => hy.elim id .inr) fun y _ hy => by
            rw [Nat.add_assoc]
            rcases hy with hy | hy
            · rcases hy.copy (hp.smooth.tidy.inner hp.smooth.stays) (HasAt.body h3)
                (HasAt.body h2) with hy | hy
              · exact awaits_of_way (hr.way_round h2 hr.passes) hy
              · rwa [Nat.add_assoc] at hy
            · exact awaits_of_way (hr.way_done h2 hr.passes) (hend ▸ hy)
        refine ⟨hm'', fun y hy ho => ?_⟩
        rw [hframe' y hy ho, hframe y hy ho, choice_slot]
      · exact ⟨hm.choice, fun y _ _ => by rw [choice_slot]⟩
  obtain ⟨hm', hframe⟩ := hround (m.choices.length + 1) m <|
    hm.mono (fun _ => id) (fun _ => .inl) fun y _ hy => by
      rcases hy with hy | hy
      · exact awaits_of_way (hr.way_round h3 hr.passes) hy
      · exact awaits_of_way (hr.way_done h3 hr.passes) hy
  refine ⟨hm'.mono (fun _ => id) (fun y hy => hy.imp_right ?_) fun _ _ => .inr, hframe⟩
  exact fun ⟨z, hz, ht⟩ => ⟨z, by simp [Piece.rounds, roundsCode, hz], ht⟩

end Rounds

end Control

end Fragment

end Lifecycle
