import Lifecycle.Proofs.Ownership.Value

/-!
# Effects of statements

`Runs` says what a statement keeps: behind it the books are right again, with the variables that it
leaves in scope. A store goes into a variable that holds no value, or that is destroyed first; a
copy destroys the old value by itself.
-/

namespace Lifecycle

namespace Fragment

open Lifecycle.Graph Ledger

def Runs (S : Setting) (g : Graph) (Γ E : List SymRef) (p : Piece) (f : Ledger → Ledger) : Prop :=
  ∀ ⦃D : List SymRef⦄ ⦃L : SymRef → Prop⦄ ⦃i j : Nat⦄ ⦃m : Ledger⦄, Place S g p Γ D L i j →
    Holds S Γ D L (g.Awaits · i) .blank m → (∀ x ∈ p.vars, m.slot x = .empty) →
    Holds S (E ++ Γ) D (fun x => L x ∨ Marks p.code x) (g.Awaits · (i + p.code.length)) .blank
        (f m) ∧
      ∀ x, x ∉ Γ → ¬ p.Owns x → (f m).slot x = m.slot x

section Runs

variable {S : Setting} {g : Graph} {p q : Piece} {Γ E E' D : List SymRef} {L : SymRef → Prop}
  {a : Slot} {m m' : Ledger} {f f' : Ledger → Ledger} {h v : Head} {i j x y : Nat}

theorem runs_nil (hc : p.code = []) : Runs S g Γ [] p id := by
  intro D L i j m _ hm _
  refine ⟨?_, fun _ _ _ => rfl⟩
  rw [hc]
  exact hm.mono (fun _ => id) (fun _ => .inl) fun _ _ => id

theorem Yields.runs {f : Ledger → Val × Ledger} (hf : Yields S g Γ p false f) :
    Runs S g Γ [] p fun m => (f m).2 := by
  intro D L i j m hp hm hv
  obtain ⟨u, m', he, hm', -, hs⟩ := hf hp hm hv
  dsimp only
  rw [he]
  refine ⟨hm'.mono (fun _ => id) (fun _ => .inl) fun _ _ => id, fun x hx ho => ?_⟩
  exact (hs x fun hr => ho (.inr hr)).resolve_right fun he => hx he.1

theorem Runs.seq (hf : Runs S g Γ E p f) (hf' : Runs S g (E ++ Γ) E' q f') (hp : Sound S Γ p)
    (hq : Sound S (E ++ Γ) q) (ha : Apart p q) (he : ∀ x ∈ E, x ∈ p.decls)
    (hfin : ∀ x ∈ E, x ∈ p.finals) : Runs S g Γ (E ++ E') (p.append q) (f' ∘ f) := by
  intro D L i j m hP hm hv
  obtain ⟨hm', hframe⟩ := hf (hP.left hp hq ha) hm fun x hx => hv x (List.mem_append_left _ hx)
  have hright := hP.right hp hq ha he hfin
  have hout : ∀ {x}, q.Owns x → x ∉ Γ := by
    rintro x (hx | hx) hin
    · exact hP.fresh x (List.mem_append_right _ hx) hin
    · have := hP.room.known hin
      have := hp.known
      have := hp.le
      have := ha.next
      omega
  obtain ⟨hm'', hframe'⟩ := hf' hright hm' fun x hx => by
    rw [hframe x (hout (hq.vars x hx)) fun ho => hp.owns_apart hq ha ho (hq.vars x hx)]
    exact hv x (List.mem_append_right _ hx)
  refine ⟨?_, fun x hx ho => ?_⟩
  · simp only [Piece.append, List.length_append, ← Nat.add_assoc]
    refine hm''.mono (fun x hx => ?_) ?_ fun _ _ => id
    · simp only [List.mem_append] at hx ⊢
      tauto
    · rintro x ((hx | ⟨y, hy, ht⟩) | ⟨y, hy, ht⟩)
      · exact .inl hx
      · exact .inr ⟨y, List.mem_append_left _ hy, ht⟩
      · exact .inr ⟨y, List.mem_append_right _ hy, ht⟩
  · have hop : ¬ p.Owns x := fun h => ho (owns_append_left h ha hq.le)
    have hoq : ¬ q.Owns x := fun h => ho (owns_append_right h ha hp.le)
    rw [Function.comp, hframe' x ?_ hoq, hframe x hx hop]
    intro hin
    rcases List.mem_append.1 hin with hin | hin
    · exact hop (.inl (he x hin))
    · exact hx hin

/-! ## Declarations -/

theorem runs_declare (hc : p.code = []) (hd : p.decls = [x]) (hv : p.vars = [x])
    (hx : ¬ g.Awaits x 0) : Runs S g Γ [x] p id := by
  intro D L i j m hp hm hempty
  have hslot : m.slot x = .empty := hempty x (by simp [hv])
  have hnot : ¬ g.Awaits x i := fun ha => hx (awaits_of_way (hp.unwritten x (by simp [hd])) ha)
  refine ⟨?_, fun _ _ _ => rfl⟩
  rw [hc]
  refine ⟨hm.kept, fun y hy ha => ?_, fun y hy hl w hw => ?_, hm.lent⟩
  · rcases List.mem_cons.1 hy with rfl | hy
    · exact absurd ha hnot
    · exact hm.live y hy ha
  · rcases List.mem_cons.1 hy with rfl | hy
    · rw [id, hslot] at hw
      cases hw
    · exact .inl (hm.early y hy hl w hw)

theorem runs_default (hc : p.code = []) (hd : p.decls = [x]) (hv : p.vars = [x])
    (hf : p.finals = [x]) : Runs S g Γ [x] p (·.store x (.held .blank)) := by
  intro D L i j m hp hm hempty
  have hslot : m.slot x = .empty := hempty x (by simp [hv])
  have hxD : x ∈ D := hp.finals x (by simp [hf])
  have hput : (m.store x (.held .blank)).slot x = .blank := if_pos rfl
  refine ⟨?_, fun y hy ho => ?_⟩
  · rw [hc]
    refine hm.update (hm.kept.store hp.room.nodup hxD (by simp [hslot]) rfl) (fun y hy => ?_)
      (hp.room.strange x hxD) (fun y hy hne => (List.mem_cons.1 hy).resolve_left hne)
      (fun _ => .inl) (fun _ _ _ => id) (fun _ _ => by simp [hput]) ?_
    · rw [store_slot, if_neg hy]
    · intro _ _ w hw
      rw [hput] at hw
      cases hw
  · rw [store_slot, if_neg]
    rintro rfl
    exact ho (.inl (by simp [hd]))

/-! ## Stores -/

/-- The piece `p` with a write of `x` behind it, which also declares `d`. -/
def Piece.storing (p : Piece) (v : Head) (x : SymRef) (d : List SymRef) : Piece :=
  { p with
    code := p.code ++ [.define (named v x)]
    sites := p.sites ++ [v.site]
    decls := d
    vars := d ++ p.vars
    finals := d ++ p.finals }

/-- Where a value is stored: in a variable that is declared with it, or in one that is in scope. -/
def Target (S : Setting) (Γ : List SymRef) (x : SymRef) (d : List SymRef) : Prop :=
  S.isLocal x = true ∧ (d = [x] ∨ d = [] ∧ x ∈ Γ)

/-- `f` stores into `x`, provided that `x` holds no value. -/
def Fills (S : Setting) (g : Graph) (Γ E : List SymRef) (p : Piece) (x : SymRef)
    (f : Ledger → Ledger) : Prop :=
  ∀ ⦃D : List SymRef⦄ ⦃L : SymRef → Prop⦄ ⦃i j : Nat⦄ ⦃m : Ledger⦄, Place S g p Γ D L i j →
    Holds S Γ D L (g.Awaits · i) .blank m → (∀ y ∈ p.vars, y ≠ x → m.slot y = .empty) →
    (∀ w, m.slot x ≠ .full w) →
    Holds S (E ++ Γ) D (fun x => L x ∨ Marks p.code x) (g.Awaits · (i + p.code.length)) .blank
        (f m) ∧
      ∀ x, x ∉ Γ → ¬ p.Owns x → (f m).slot x = m.slot x

section Stores

variable {d : List SymRef}

theorem Target.mem (hd : Target S Γ x d) (hp : Place S g (p.storing v x d) Γ D L i j) : x ∈ D := by
  rcases hd.2 with rfl | ⟨rfl, hx⟩
  · exact hp.finals x (by simp [Piece.storing])
  · exact hp.room.sub x hx

theorem Target.scope (hd : Target S Γ x d) (hy : y ∈ d ++ Γ) (hne : y ≠ x) : y ∈ Γ := by
  rcases hd.2 with rfl | ⟨rfl, -⟩
  · exact (List.mem_cons.1 hy).resolve_left hne
  · exact hy

theorem Target.owned (hd : Target S Γ x d) : x ∈ Γ ∨ (p.storing v x d).Owns x := by
  rcases hd.2 with rfl | ⟨rfl, hx⟩
  · exact .inr (.inl (by simp [Piece.storing]))
  · exact .inl hx

theorem Target.place (hd : Target S Γ x d) (hs : Sound S Γ p) (hdecl : p.decls = [])
    (hsite : v.site ∉ p.sites) (hp : Place S g (p.storing v x d) Γ D L i j) :
    Place S g p Γ D L i j where
  stands := by
    refine hp.stands.left (fun s hs => List.mem_append_left _ hs) ?_
    rintro y hy n hn s hs he
    obtain rfl := List.mem_singleton.1 hy
    cases hn
    cases he
    exact hsite hs
  room := hp.room
  reach := hp.reach
  unwritten x hx := by simp [hdecl] at hx
  fresh x hx := by simp [hdecl] at hx
  touched := hp.touched
  finals x hx := hp.finals x (List.mem_append_right _ hx)
  only y hy ho := by
    have hr : p.lo ≤ y ∧ y < p.hi := ho.resolve_left (by simp [hdecl])
    refine (List.mem_append.1 (hp.only y hy (.inr hr))).resolve_left fun hin => ?_
    have hlt : y < S.symbols.all.size := by
      rcases hd.2 with rfl | ⟨rfl, -⟩
      · rw [List.mem_singleton.1 hin]
        exact isKnown_of_isLocal hd.1
      · cases hin
    have := hs.known
    omega

theorem Stands.awaits_define (hst : Stands g i j (c ++ [.define (named v x)]) ss) (hne : y ≠ x)
    (ha : g.Awaits y (i + (c ++ [Instr.define (named v x)]).length)) :
    g.Awaits y (i + c.length) := by
  have hcode : g.code[i + c.length]? = some (.define (named v x)) :=
    HasAt.head (HasAt.right hst.first)
  have hno : ¬ (Instr.define (named v x)).Writes y := by
    rintro ⟨n, hn, hs⟩
    cases hn
    have hxy : x = y := by simpa [named] using hs
    exact hne hxy.symm
  exact awaits_of_way (way_one hcode hno (.access rfl)) (by simpa [Nat.add_assoc] using ha)

theorem marks_define : Marks (c ++ [.define (named v x)]) x :=
  ⟨.define (named v x), by simp, named v x, rfl, isSym_named⟩

theorem Yields.fills {f : Ledger → Val × Ledger} (hf : Yields S g Γ p true f) (hs : Sound S Γ p)
    (hdecl : p.decls = []) (hsite : v.site ∉ p.sites) (hd : Target S Γ x d) :
    Fills S g Γ d (p.storing v x d) x fun m => (f m).2.store x (f m).1 := by
  intro D L i j m hp hm hv hfree
  have hlt := isKnown_of_isLocal hd.1
  have hlo := hs.known
  obtain ⟨u, m', he, hm', hu, hsh⟩ := hf (hd.place hs hdecl hsite hp) hm fun y hy => by
    refine hv y (List.mem_append_right _ hy) ?_
    rintro rfl
    have := (hs.vars y hy).resolve_left (by simp [hdecl])
    omega
  dsimp only
  rw [he]
  refine ⟨?_, fun y hy ho => ?_⟩
  · exact hm'.store hp.room (hd.mem hp) (hsh.ne_full (by omega) hfree) (hu rfl)
      (fun y hy hne => hd.scope hy hne) (fun _ => .inl) (fun _ => .inr marks_define)
      fun y _ hne ha => hp.stands.awaits_define hne ha
  · have hyx : y ≠ x := by
      rintro rfl
      exact hd.owned.elim hy ho
    rw [store_slot, if_neg hyx]
    exact (hsh y fun hr => ho (.inr hr)).resolve_right fun he => hy he.1

theorem fills_move (hy : y ∈ Γ) (hyx : y ≠ x) (hc : p.code = [.use (named h y)])
    (hys : h.site ∈ p.sites) (hlast : LastRead g h y) (hs : Sound S Γ p)
    (hdecl : p.decls = []) (hsite : v.site ∉ p.sites) (hd : Target S Γ x d) :
    Fills S g Γ d (p.storing v x d) x
      fun m => ((m.read y).2.store x (m.read y).1).put y .empty := by
  intro D L i j m hp hm hv hfree
  have hread := hm.read hp.room hy ((hd.place hs hdecl hsite hp).awaits hc)
  have heq : ((m.read y).2.store x (m.read y).1).put y .empty =
      (takeOut y m).2.store x (takeOut y m).1 := by
    rw [hread]
    exact put_comm (Ne.symm hyx)
  dsimp only
  rw [heq]
  exact (yields_takeOut hy hc hys hlast).fills hs hdecl hsite hd hp hm hv hfree

/-! Which variables hold no value. -/

theorem Fills.declared (hf : Fills S g Γ [x] (p.storing v x [x]) x f) :
    Runs S g Γ [x] (p.storing v x [x]) f := by
  intro D L i j m hp hm hv
  have hx : m.slot x = .empty := hv x (by simp [Piece.storing])
  exact hf hp hm (fun y hy _ => hv y hy) (by simp [hx])

theorem Fills.first (hf : Fills S g Γ [] (p.storing v x []) x f) (hs : Sound S Γ p)
    (hsite : v.site ∉ p.sites) (hd : Target S Γ x []) (hfirst : FirstWrite g v x) :
    Runs S g Γ [] (p.storing v x []) f := by
  intro D L i j m hp hm hv
  refine hf hp hm (fun y hy _ => hv y hy) fun w hw => ?_
  have hx : x ∈ Γ := (hd.2.resolve_left (by simp)).2
  have hav : Avoids [v.site] p.code := hs.avoids (by simpa using hsite)
  have hdef := hp.stands.right (by simp [Piece.storing]) hav
  obtain ⟨pc, hpc, hnot⟩ := hfirst
  rw [hdef.findLast?_eq rfl rfl (by simp)] at hpc
  cases hpc
  refine hnot ((hp.touched x (hm.early x hx hd.1 w hw)).trans ?_)
  exact hs.way (HasAt.left hp.stands.last) fun _ _ => trivial

theorem not_awaits_define (hc : Silent c) (hno : ∀ z ∈ c, ¬ z.Reads x) :
    ∀ {i}, g.HasAt i (c ++ [.define (named v x)]) → ¬ g.Awaits x i := by
  induction c with
  | nil =>
    intro i hi ha
    rcases Meets.access ha hi.head rfl with ⟨n, hn, -⟩ | ⟨hw, -⟩
    · cases hn
    · exact hw ⟨_, rfl, isSym_named⟩
  | cons z c ih =>
    intro i hi ha
    obtain ⟨k, w, rfl⟩ := hc z (by simp)
    rcases Meets.access ha hi.head rfl with hr | ⟨-, hnext⟩
    · exact hno _ (by simp) hr
    · exact ih (fun z hz => hc z (by simp [hz])) (fun z hz => hno z (by simp [hz])) hi.tail hnext

theorem Fills.destroyed (hf : Fills S g Γ [] (p.storing v x []) x f) (hd : Target S Γ x [])
    (hc : Silent p.code) (hno : ∀ z ∈ p.code, ¬ z.Reads x) :
    Runs S g Γ [] (p.storing v x []) fun m => f (m.destroy x) := by
  intro D L i j m hp hm hv
  have hx : x ∈ Γ := (hd.2.resolve_left (by simp)).2
  have hxD := hp.room.sub x hx
  have hnot : ¬ g.Awaits x i := not_awaits_define hc hno hp.stands.first
  obtain ⟨hm', hframe⟩ := hf hp (hm.destroy hp.room hxD fun _ => hnot)
    (fun y hy hne => by rw [destroy_slot, if_neg hne]; exact hv y hy) (by simp)
  refine ⟨hm', fun y hy ho => ?_⟩
  rw [hframe y hy ho, destroy_slot, if_neg]
  rintro rfl
  exact hy hx

theorem runs_copy (hy : Readable S Γ (p.storing v x d) y) (hc : Silent p.code)
    (hs : Sound S Γ p) (hdecl : p.decls = []) (hsite : v.site ∉ p.sites) (hd : Target S Γ x d) :
    Runs S g Γ d (p.storing v x d) fun m => (m.read y).2.copyTo x := by
  intro D L i j m hp hm hv
  dsimp only
  rw [hy.read hp hm]
  refine ⟨?_, fun z hz ho => ?_⟩
  · exact (hc.advance (hd.place hs hdecl hsite hp) hm).copyTo hp.room (hd.mem hp)
      (fun y hy hne => hd.scope hy hne) (fun _ => .inl) (fun _ => .inr marks_define)
      fun y _ hne ha => hp.stands.awaits_define hne ha
  · rw [copyTo_slot, if_neg]
    rintro rfl
    exact hd.owned.elim hz ho

theorem runs_self (hx : x ∈ Γ) (hc : p.code = [.use (named h x)]) (hs : Sound S Γ p)
    (hdecl : p.decls = []) (hsite : v.site ∉ p.sites) (hl : S.isLocal x = true) :
    Runs S g Γ [] (p.storing v x []) id := by
  intro D L i j m hp hm _
  have hpl := Target.place ⟨hl, .inr ⟨rfl, hx⟩⟩ hs hdecl hsite hp
  have hsil : Silent p.code := fun y hy => ⟨h, x, by simpa [hc] using hy⟩
  refine ⟨?_, fun _ _ _ => rfl⟩
  refine (hsil.advance hpl hm).update (x := x) hm.kept (fun _ _ => rfl)
    (isForeign_of_isLocal hl) (fun _ hy _ => hy) (fun _ => .inl)
    (fun y _ hne ha => hp.stands.awaits_define hne ha) (fun _ _ => ?_)
    fun _ _ _ _ => .inr marks_define
  exact hm.live x hx (hpl.awaits hc)

end Stores

end Runs

end Fragment

end Lifecycle
