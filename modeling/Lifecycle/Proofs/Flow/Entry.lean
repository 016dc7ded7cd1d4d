import Lifecycle.Proofs.Flow.Forward

/-!
# What the oracle says about the way from the entry

In a body without `break` and `try` two answers of the oracle can be relied on: where it says that a
write is the first one, no way from the entry to the write comes over an access to its location, and
a variable that some way reads before it is written is among the uninitialized ones (`entry_sound`).
-/

namespace Lifecycle

def Instr.Uses (v : SymRef) (i : Instr) : Prop := ∃ n, i = .use n ∧ n.root? = .ok (some v)

namespace Graph

variable {g : Graph} {loc : Node} {v : SymRef} {pc top : Nat}

def LeavesBeyond (g : Graph) : Prop :=
  (∃ n, Instr.goto n .exit ∈ g.code.toList) → g.size < exitTarget

theorem Tidy.onward (ht : Tidy g.code.toList) (hexit : g.LeavesBeyond) : g.Onward := by
  have hlist : ∀ {pc : Nat} {x : Instr}, g.code[pc]? = some x → g.code.toList[pc]? = some x := by
    intro pc x h
    rw [Array.getElem?_toList, h]
  refine ⟨fun {pc n j} h => ?_, fun {pc d n} h => ?_⟩
  · have hmem := List.mem_of_getElem? (hlist h)
    rcases ht.jump hmem with ⟨d, rfl⟩ | rfl
    · exact (ht.inward.goes (hlist h) (.goto n d)).1
    · have hlt : pc < g.size := (Array.getElem?_eq_some_iff.1 h).1
      have := hexit ⟨n, hmem⟩
      simp only [Jump.dist]
      omega
  · exact (ht.inward.goes (hlist h) (.branch n d)).1

theorem Onward.lt_of_step (hg : g.Onward) (h : g.Step pc next) : pc < next := by
  cases h with
  | access => omega
  | goto h => have := hg.goto h; omega
  | stay => omega
  | branch h => have := hg.fork h; omega

theorem Way.le (hg : g.Onward) (hw : g.Way P a b) : a ≤ b := by
  induction hw with
  | refl => exact Nat.le_refl _
  | step _ _ hs _ ih => exact Nat.le_trans (Nat.le_of_lt (hg.lt_of_step hs)) ih

/-! ## First writes -/

/-- An access to the location or to a part of it. -/
def Overlaps (loc : Node) (i : Instr) : Prop := ∃ n, i.access? = some n ∧ n.touches loc

def Disturbed (g : Graph) (loc : Node) (top : Nat) : Nat → Prop :=
  g.Meets (fun _ => True) fun a i => a < top ∧ Overlaps loc i

theorem followed_disturbed (g : Graph) (loc : Node) (top : Nat) :
    g.Followed (firstWriteScan loc) (g.Disturbed loc top) := by
  refine followed_meets (fun _ => trivial) ?_ ?_
  · rintro pc i hpass ⟨-, n, hn, ht⟩
    cases i <;> cases hn <;>
      simp [Passes, Instr.access?, firstWriteScan, firstWriteJudge, ht] at hpass
  · intro pc i hj
    cases i with
    | goto m j => cases hj
    | fork m d => cases hj
    | define m => simp only [firstWriteScan, firstWriteJudge] at hj; split_ifs at hj
    | use m => simp only [firstWriteScan, firstWriteJudge] at hj; split_ifs at hj

theorem not_disturbed_of_le (hg : g.Onward) (h : top ≤ pc) : ¬ g.Disturbed loc top pc := by
  rintro ⟨a, i, hw, -, hlt, -⟩
  have := hw.le hg
  omega

theorem bounded_firstWrite (htop : top < g.size) : g.Bounded (firstWriteScan loc) top where
  top_le := Nat.le_of_lt htop
  sound h := by
    simp only [firstWriteScan, decide_eq_true_eq] at h
    exact .inl h
  past_top h := by simpa only [firstWriteScan, decide_eq_true_eq] using h
  past_end hu h := by
    simp only [firstWriteScan, decide_eq_true_eq]
    omega
  apart_comm a b u := by simp only [firstWriteScan, Nat.max_comm]

theorem not_disturbed_of_scan (ht : Tidy g.code.toList) (hexit : g.LeavesBeyond)
    (htop : top < g.size) (h : g.scanFirstWrite loc top = .at e) : ¬ g.Disturbed loc top 0 := by
  intro hd
  have hg := ht.onward hexit
  rcases ((followed_disturbed g loc top).scan _ _ _ h).1 hd with he | ⟨c, hc, hb⟩
  · have := le_of_scan h
    exact not_disturbed_of_le hg (by omega) he
  · have hfar := ht.dropped_far (bounded_firstWrite htop) (fun hn => Nat.le_of_lt (hexit hn)) h c hc
    exact not_disturbed_of_le hg (hfar.elim Nat.le_of_lt (Nat.le_trans (Nat.le_of_lt htop))) hb

/-! ## Reads before writes -/

variable {ss : Symbols} {u k : Nat} {st st' : InitState} {a b : InitState}

/-- Some way from here reads the variable or a part of it before it is written as a whole. -/
def UsedEarly (g : Graph) (v : SymRef) : Nat → Prop :=
  g.Meets (¬ ·.Writes v) fun _ i => i.Uses v

/-- What a scan from `st` to `st'` has to have found out: a variable that is yet to be read and was
not written is noted, or it still is so. -/
structure Owes (g : Graph) (v : SymRef) (st st' : InitState) : Prop where
  early : ∀ {x}, x ∈ st.early → x ∈ st'.early
  found : g.UsedEarly v st.pc → v ∉ st.written →
    v ∈ st'.early ∨ g.UsedEarly v st'.pc ∧ v ∉ st'.written

theorem Owes.refl (g : Graph) (v : SymRef) (st : InitState) : g.Owes v st st :=
  ⟨id, fun h hw => .inr ⟨h, hw⟩⟩

theorem Owes.trans (h : g.Owes v st st') (h' : g.Owes v st' st'') : g.Owes v st st'' where
  early hx := h'.early (h.early hx)
  found ha hw := by
    rcases h.found ha hw with he | ⟨ha', hw'⟩
    · exact .inl (h'.early he)
    · exact h'.found ha' hw'

theorem Owes.goto {n : Node} {j : Jump} (h : g.code[st.pc]? = some (.goto n j)) :
    g.Owes v st { st with pc := st.pc + j.dist st.pc } where
  early := id
  found hu hw := .inr ⟨hu.goto h (by rintro ⟨m, hm, -⟩; cases hm), hw⟩

theorem Owes.after (hv : (ss.get v).kind ≠ .param) {x : Instr} {m : Node}
    (hx : g.code[st.pc]? = some x) (ha : x.access? = some m) : g.Owes v st (st.after ss x) := by
  cases x with
  | goto n j => cases ha
  | fork n d => cases ha
  | use n =>
    refine ⟨fun {y} hy => ?_, fun hu hnw => ?_⟩
    · simp only [InitState.after]
      split
      · split_ifs
        · exact hy
        · exact List.mem_cons_of_mem _ hy
      · exact hy
    · rcases hu.access hx ha with ⟨n', hn', hroot⟩ | ⟨-, hnext⟩
      · cases hn'
        have hown : ownVariable? ss n = some v := by simp [ownVariable?, hroot, hv]
        left
        simp only [InitState.after, hown]
        split_ifs with hc
        · simpa [hnw] using hc
        · exact List.mem_cons_self
      · exact .inr ⟨hnext, hnw⟩
  | define n =>
    refine ⟨id, fun hu hnw => ?_⟩
    obtain ⟨hnot, hnext⟩ := (hu.access hx ha).resolve_left (by rintro ⟨n', hn', -⟩; cases hn')
    refine .inr ⟨hnext, fun hmem => ?_⟩
    simp only [InitState.after] at hmem
    split at hmem
    · rename_i h hh
      split at hmem
      · rename_i w hw
        split_ifs at hmem with hc
        · rcases List.mem_cons.1 hmem with rfl | hmem
          · refine hnot ⟨n, rfl, ?_⟩
            simp only [Bool.and_eq_true] at hc
            simp [Node.isSym, hh, hw, hc.1]
          · exact hnw hmem
        · exact hnw hmem
      · exact hnw hmem
    · exact hnw hmem

/-- Both ways of a fork are put together where they meet, or where the one is that has not left the
routine. -/
theorem Owes.join (hf : g.code[st.pc]? = some (.fork m d))
    (ha : g.Owes v { st with pc := st.pc + 1 } a)
    (hb : g.Owes v { st with pc := st.pc + d, early := a.early } b)
    (hpa : a.pc = p ∨ g.size < a.pc) (hpb : b.pc = p ∨ g.size < b.pc) :
    g.Owes v st (st.joined (p, a.written, b.written, b.early)) where
  early hx := hb.early (ha.early hx)
  found hw hnw := by
    have hout : v ∉ a.written ∨ v ∉ b.written →
        v ∉ (st.joined (p, a.written, b.written, b.early)).written := by
      intro hl hv
      simp only [InitState.joined, List.mem_append, List.mem_filter, Bool.and_eq_true,
        List.contains_iff_mem] at hv
      rcases hv with ⟨h1, h2, -⟩ | hv
      · exact hl.elim (absurd h1) (absurd h2)
      · exact hnw hv
    have hin : ∀ {c : InitState}, c.pc = p ∨ g.size < c.pc → g.UsedEarly v c.pc →
        g.UsedEarly v p := by
      rintro c (rfl | hc) h
      · exact h
      · exact absurd h (not_meets_of_none (Array.getElem?_eq_none_iff.2 (Nat.le_of_lt hc)))
    rcases hw.fork hf (by rintro ⟨n, hn, -⟩; cases hn) with hs | hs
    · rcases ha.found hs hnw with he | ⟨he, hnot⟩
      · exact .inl (hb.early he)
      · exact .inr ⟨hin hpa he, hout (.inl hnot)⟩
    · rcases hb.found hs hnw with he | ⟨he, hnot⟩
      · exact .inl he
      · exact .inr ⟨hin hpb he, hout (.inr hnot)⟩

theorem scanInit_done (h : u ≤ st.pc) : g.scanInit ss k st u = st := by
  cases k with
  | zero => rfl
  | succ k => rw [scanInit, if_pos h]

theorem forkInit_done (h : a.pc = b.pc ∨ u < max a.pc b.pc) :
    g.forkInit ss k a b u = (min a.pc b.pc, a.written, b.written, a.early) := by
  cases k with
  | zero => rw [forkInit]
  | succ k => rw [forkInit, if_pos (by simpa using h)]

theorem forkInit_left (h : a.pc < b.pc) (hu : b.pc ≤ u) :
    g.forkInit ss (k + 1) a b u = g.forkInit ss k (g.scanInit ss k a b.pc)
      { b with early := (g.scanInit ss k a b.pc).early } u := by
  have hno : ¬ (a.pc = b.pc || u < max a.pc b.pc) := by simp; omega
  rw [forkInit, if_neg hno, if_pos h, Nat.min_eq_left hu]

theorem forkInit_right (h : b.pc < a.pc) (hu : a.pc ≤ u) :
    g.forkInit ss (k + 1) a b u = g.forkInit ss k
      { a with early := (g.scanInit ss k b a.pc).early } (g.scanInit ss k b a.pc) u := by
  have hno : ¬ (a.pc = b.pc || u < max a.pc b.pc) := by simp; omega
  rw [forkInit, if_neg hno, if_neg (by omega), Nat.min_eq_left hu]

/-- The scan for early reads goes on from `st'`, at the end `e` of a construct or out of the
routine, with steps left for the rest, and has found out what it owes. -/
structure Advances (g : Graph) (ss : Symbols) (v : SymRef) (u k : Nat) (st : InitState) (e : Nat)
    (k' : Nat) (st' : InitState) : Prop where
  scan : g.scanInit ss k st u = g.scanInit ss k' st' u
  place : st'.pc = e ∨ g.size < st'.pc
  steps : 2 * (u - st'.pc) + 2 ≤ k'
  owes : g.Owes v st st'

theorem Advances.done (h : g.Advances ss v u k st e k' st') (hu : u ≤ e)
    (hsize : u ≤ g.size) : g.scanInit ss k st u = st' := by
  rw [h.scan, scanInit_done]
  have := h.place
  omega

/-- Wherever such code stands in the graph, the scan comes to its end or leaves the routine. Twice
the distance to the bound is enough steps, for a fork is left two steps below and its ways are
shorter. -/
def Crosses (g : Graph) (ss : Symbols) (v : SymRef) (c : List Instr) : Prop :=
  ∀ (k u : Nat) (st : InitState), g.HasAt st.pc c → u ≤ g.size → st.pc + c.length ≤ u →
    2 * (u - st.pc) + 2 ≤ k → ∃ k' st', g.Advances ss v u k st (st.pc + c.length) k' st'

theorem crosses_skip {n : Node} {c : List Instr} (ih : g.Crosses ss v c) :
    g.Crosses ss v (.fork n (c.length + 1) :: c) := by
  intro k u st hg hsize hu hk
  rw [List.length_cons] at hu ⊢
  obtain ⟨k, rfl⟩ : ∃ n, k = n + 2 := ⟨k - 2, by omega⟩
  -- the code that can be skipped, up to its end
  obtain ⟨k', a, ha⟩ := ih k (st.pc + (c.length + 1)) { st with pc := st.pc + 1 } hg.tail
    (by omega) (by dsimp; omega) (by dsimp; omega)
  have hscan := ha.done (by dsimp; omega) (by omega)
  have hplace := ha.place
  dsimp only at hplace
  have hfork : g.forkInit ss (k + 1) { st with pc := st.pc + 1 }
      { st with pc := st.pc + (c.length + 1) } u =
        (st.pc + (c.length + 1), a.written, st.written, a.early) := by
    rcases Nat.eq_zero_or_pos c.length with hz | hpos
    · rw [scanInit_done (by dsimp; omega)] at hscan
      subst hscan
      rw [forkInit_done (.inl (by dsimp; omega))]
      simp [hz]
    · rw [forkInit_left (by dsimp; omega) (by dsimp; omega)]
      dsimp only
      rw [hscan, forkInit_done (by dsimp; omega)]
      simp only [Prod.mk.injEq, and_true]
      omega
  refine ⟨k + 1, st.joined (st.pc + (c.length + 1), a.written, st.written, a.early), ?_, ?_, ?_, ?_⟩
  · rw [scanInit_fork (by omega) hg.head, hfork]
  · exact .inl rfl
  · simp only [InitState.joined]
    omega
  · refine Owes.join (b := ⟨st.pc + (c.length + 1), st.written, a.early⟩) hg.head ha.owes
      (.refl g v _) ?_ (.inl rfl)
    omega

/-- The first arm of a fork is scanned to its jump, and over the others to the end. -/
theorem scanInit_arm {n : Node} {body rest : List Instr} (ihb : g.Crosses ss v body)
    (hbody : g.HasAt (st.pc + 1) body)
    (hgoto : g.code[st.pc + 1 + body.length]? = some (.goto n (.by (rest.length + 1))))
    (hsize : st.pc + (body.length + 2 + rest.length) ≤ g.size) (hk : 2 * body.length + 4 ≤ k + 1) :
    ∃ a : InitState,
      g.scanInit ss (k + 1) { st with pc := st.pc + 1 } (st.pc + (body.length + 2)) = a ∧
      (a.pc = st.pc + (body.length + 2 + rest.length) ∨ g.size < a.pc) ∧
      g.Owes v { st with pc := st.pc + 1 } a := by
  obtain ⟨k', a, ha⟩ := ihb (k + 1) (st.pc + (body.length + 2)) { st with pc := st.pc + 1 }
    hbody (by omega) (by dsimp; omega) (by dsimp; omega)
  rcases ha.place with hpc | hout
  · dsimp only at hpc
    obtain ⟨k', rfl⟩ : ∃ n, k' = n + 1 := ⟨k' - 1, by have := ha.steps; omega⟩
    have hjump : g.code[a.pc]? = some (.goto n (.by (rest.length + 1))) := by
      rw [hpc]
      exact hgoto
    refine ⟨{ a with pc := a.pc + (rest.length + 1) }, ?_, .inl (by dsimp; omega),
      ha.owes.trans (.goto hjump)⟩
    rw [ha.scan, scanInit_goto (by omega) hjump]
    exact scanInit_done (by dsimp only [Jump.dist]; omega)
  · refine ⟨a, ?_, .inr hout, ha.owes⟩
    rw [ha.scan, scanInit_done (by omega)]

theorem crosses_arm {n : Node} {body rest : List Instr} (ihb : g.Crosses ss v body)
    (ihr : g.Crosses ss v rest) : g.Crosses ss v (armCode n body rest) := by
  intro k u st hg hsize hu hk
  rw [length_armCode] at hu ⊢
  obtain ⟨k, rfl⟩ : ∃ n, k = n + 3 := ⟨k - 3, by omega⟩
  obtain ⟨hhead, hbody, hgoto, hrest⟩ := hg.arm
  obtain ⟨a, hscan, hplace, howes⟩ := scanInit_arm (k := k) ihb hbody hgoto (by omega) (by omega)
  have hfork : g.forkInit ss (k + 2) { st with pc := st.pc + 1 }
      { st with pc := st.pc + (body.length + 2) } u = g.forkInit ss (k + 1) a
        { st with pc := st.pc + (body.length + 2), early := a.early } u := by
    rw [forkInit_left (by dsimp; omega) (by dsimp; omega)]
    dsimp only
    rw [hscan]
  rcases hplace with hpc | hout
  · -- the other arms, up to the end
    obtain ⟨k', b, hb⟩ := ihr k a.pc { st with pc := st.pc + (body.length + 2), early := a.early }
      hrest (by omega) (by dsimp; omega) (by dsimp; omega)
    have hother := hb.done (by dsimp; omega) (by omega)
    have hplace := hb.place
    dsimp only at hplace
    have hjoin : g.forkInit ss (k + 1) a
        { st with pc := st.pc + (body.length + 2), early := a.early } u =
          (a.pc, a.written, b.written, b.early) := by
      rcases Nat.eq_zero_or_pos rest.length with hz | hpos
      · rw [scanInit_done (by dsimp; omega)] at hother
        subst hother
        rw [forkInit_done (.inl (by dsimp; omega))]
        simp only [Prod.mk.injEq, and_true]
        omega
      · rw [forkInit_right (by dsimp; omega) (by omega), hother, forkInit_done (by dsimp; omega)]
        simp only [Prod.mk.injEq, and_true]
        omega
    refine ⟨k + 2, st.joined (a.pc, a.written, b.written, b.early), ?_, .inl hpc, ?_,
      .join hhead howes hb.owes (.inl rfl) (by omega)⟩
    · rw [scanInit_fork (by omega) hhead, hfork, hjoin]
    · simp only [InitState.joined]
      omega
  · -- the arm leaves the routine, and the scan goes on with the other arms
    have hjoin : g.forkInit ss (k + 1) a
        { st with pc := st.pc + (body.length + 2), early := a.early } u =
          (st.pc + (body.length + 2), a.written, st.written, a.early) := by
      rw [forkInit_done (by dsimp; omega)]
      simp only [Prod.mk.injEq, and_true]
      omega
    have hgo :
        g.Owes v st (st.joined (st.pc + (body.length + 2), a.written, st.written, a.early)) :=
      Owes.join (b := ⟨st.pc + (body.length + 2), st.written, a.early⟩) hhead howes
        (.refl g v _) (.inr hout) (.inl rfl)
    obtain ⟨k', b, hb⟩ := ihr (k + 2) u
      (st.joined (st.pc + (body.length + 2), a.written, st.written, a.early)) hrest hsize
      (by simp only [InitState.joined]; omega) (by simp only [InitState.joined]; omega)
    refine ⟨k', b, ?_, ?_, hb.steps, hgo.trans hb.owes⟩
    · rw [scanInit_fork (by omega) hhead, hfork, hjoin]
      exact hb.scan
    · have := hb.place
      simp only [InitState.joined] at this
      omega

theorem crosses_of_tidy (ss : Symbols) (hexit : g.LeavesBeyond) (hv : (ss.get v).kind ≠ .param)
    (hc : Tidy c) : g.Crosses ss v c := by
  induction hc with
  | nil => exact fun k u st _ _ _ hk => ⟨k, st, rfl, .inl rfl, hk, .refl g v st⟩
  | @access x n ha =>
    intro k u st hg hsize hu hk
    rw [List.length_singleton] at hu ⊢
    obtain ⟨k, rfl⟩ : ∃ n, k = n + 1 := ⟨k - 1, by omega⟩
    have hpc : (st.after ss x).pc = st.pc + 1 := InitState.pc_after ha
    exact ⟨k, _, scanInit_access (by omega) hg.head ha, .inl hpc, by omega, .after hv hg.head ha⟩
  | exit n =>
    intro k u st hg hsize hu hk
    rw [List.length_singleton] at hu ⊢
    obtain ⟨k, rfl⟩ : ∃ n, k = n + 1 := ⟨k - 1, by omega⟩
    have hmem : Instr.goto n .exit ∈ g.code.toList :=
      List.mem_of_mem_drop (hg.subset List.mem_cons_self)
    have hout := hexit ⟨n, hmem⟩
    refine ⟨k, _, scanInit_goto (by omega) hg.head, .inr ?_, ?_, .goto hg.head⟩ <;>
      simp only [Jump.dist] <;> omega
  | @append c d _ _ ihc ihd =>
    intro k u st hg hsize hu hk
    rw [List.length_append] at hu ⊢
    obtain ⟨k1, st1, h₁⟩ := ihc k u st hg.left hsize (by omega) hk
    rcases h₁.place with hpc | hout
    · have hright := hg.right
      rw [← hpc] at hright
      obtain ⟨k2, st2, h₂⟩ := ihd k1 u st1 hright hsize (by omega) h₁.steps
      refine ⟨k2, st2, h₁.scan.trans h₂.scan, ?_, h₂.steps, h₁.owes.trans h₂.owes⟩
      rw [← Nat.add_assoc, ← hpc]
      exact h₂.place
    · exact ⟨k1, st1, h₁.scan, .inr hout, h₁.steps, h₁.owes⟩
  | skip n _ ih => exact crosses_skip ih
  | arm n _ _ ihb ihr => exact crosses_arm ihb ihr

theorem mem_uninit (ht : Tidy g.code.toList) (hexit : g.LeavesBeyond)
    (hv : (ss.get v).kind ≠ .param) (h : g.UsedEarly v 0) : v ∈ g.uninit ss := by
  have hlen : g.code.toList.length = g.size := Array.length_toList
  have hdepth : 2 * (g.size - 0) + 2 ≤ scanDepth g.size := by
    have := Nat.mul_le_mul_right (g.size + 2) (Nat.le_add_left 2 g.size)
    rw [scanDepth]
    omega
  obtain ⟨k', st', hst⟩ := crosses_of_tidy ss hexit hv ht (scanDepth g.size) g.size ⟨0, [], []⟩
    g.hasAt_self (Nat.le_refl _) (by rw [hlen]; dsimp only; omega) hdepth
  have hplace := hst.place
  rw [uninit, hst.done (by dsimp only; omega) (Nat.le_refl _)]
  rcases hst.owes.found h (by simp) with hearly | ⟨hend, -⟩
  · exact hearly
  · refine absurd hend (not_meets_of_none (Array.getElem?_eq_none_iff.2 ?_))
    change g.size ≤ st'.pc
    omega

theorem findLast?_lt (h : g.findLast? n = some pc) : pc < g.size := by
  obtain ⟨k, hk, rfl⟩ := Option.map_eq_some_iff.1 h
  have := (List.findIdx?_eq_some_iff_findIdx_eq.1 hk).1
  rw [List.length_reverse, Array.length_toList] at this
  change k < g.size at this
  omega

theorem le_of_findLast? (h : g.findLast? n = some pc)
    (hp : g.code[p]? = some i) (hi : i.isAt n = true) : p ≤ pc := by
  obtain ⟨k, hk, rfl⟩ := Option.map_eq_some_iff.1 h
  obtain ⟨hlt, -, hbefore⟩ := List.findIdx?_eq_some_iff_getElem.1 hk
  have hpsize : p < g.size := (Array.getElem?_eq_some_iff.1 hp).1
  by_contra hn
  refine hbefore (g.size - 1 - p) (by omega) ?_
  have hget : g.code.toList.reverse[g.size - 1 - p]? = some i := by
    rw [List.getElem?_reverse (by simp only [Array.length_toList]; change _ < g.size; omega),
      Array.length_toList, Array.getElem?_toList]
    rwa [show g.code.size - 1 - (g.size - 1 - p) = p by change g.size - 1 - _ = p; omega]
  rw [(List.getElem?_eq_some_iff.1 hget).2]
  exact hi

end Graph

namespace Oracle

variable {o : Oracle} {n : Node}

theorem isFirstWrite_eq_true (h : o.isFirstWrite n = .ok true) :
    ∃ m pc e, n.skipConv = .ok m ∧ o.graph.findLast? m = some pc ∧
      o.graph.scanFirstWrite m pc = .at e := by
  obtain ⟨m, hm, h⟩ := bind_eq_ok.1 h
  refine ⟨m, ?_⟩
  rcases hpc : o.graph.findLast? m with _ | pc
  · rw [hpc] at h
    cases h
  · rw [hpc] at h
    dsimp only at h
    rcases he : o.graph.scanFirstWrite m pc with e | w | _ <;> rw [he] at h
    · exact ⟨pc, e, hm, rfl, he⟩
    · cases h
    · cases h

/-- The answers about the entry of a routine without `break` and `try`. Where a write is said to be
the first one, no way from the entry to an access at its site comes over an access that overlaps its
location. And a variable, no parameter, that some way from the entry reads before it is written as a
whole is among the uninitialized ones. The bound on the graph makes a jump out of the routine one
out of the graph. -/
theorem entry_sound {r : Routine} {ss : Symbols} {types : TypeTable}
    (hg : r.graph ss types = .ok o.graph) (hr : r.body.Structured)
    (hsize : o.graph.size < exitTarget) :
    (∀ {n}, o.isFirstWrite n = .ok true → ∃ m, n.skipConv = .ok m ∧
      ∀ {p i}, o.graph.code[p]? = some i → i.isAt m = true →
        ¬ ∃ a next j, o.graph.Way (fun _ => True) 0 a ∧ o.graph.code[a]? = some j ∧
          Graph.Overlaps m j ∧ o.graph.Step a next ∧ o.graph.Way (fun _ => True) next p) ∧
    ∀ {v}, (ss.get v).kind ≠ .param → o.graph.UsedEarly v 0 → v ∈ o.graph.uninit ss := by
  have ht := Graph.graph_tidy hg hr
  have hexit : o.graph.LeavesBeyond := fun _ => hsize
  refine ⟨fun {n} h => ?_, fun hv => Graph.mem_uninit ht hexit hv⟩
  obtain ⟨m, top, e, hm, htop, he⟩ := isFirstWrite_eq_true h
  refine ⟨m, hm, fun {p i} hp hi => ?_⟩
  rintro ⟨a, next, j, hin, hj, hover, hs, hout⟩
  have hlt := (ht.onward hexit).lt_of_step hs
  have hle := hout.le (ht.onward hexit)
  have hlast := Graph.le_of_findLast? htop hp hi
  refine Graph.not_disturbed_of_scan ht hexit (Graph.findLast?_lt htop) he ?_
  exact ⟨a, j, hin, hj, by omega, hover⟩

end Oracle

/-! ## A routine that may return early -/

namespace Early

open Sample

def symbols : Symbols where
  all := #[{ name := "f", kind := .proc }, { name := "c", kind := .param, owner := some 0 },
    { name := "x", kind := .varLocal, owner := some 0 },
    { name := "y", kind := .varLocal, owner := some 0 }, { name := "use", kind := .proc }]

/-- One branch returns before `x` and `y` are used: `if c: return`, `x = ..`, `use y`. -/
def routine : Routine where
  sym := some 0
  params := [some 1]
  body := node .stmtList 0 0 [
    node .ifStmt 0 0 [node .elifBranch 0 0 [sym 1 0 1, node .returnStmt 0 0 [node .empty 0 0 []]]],
    node .asgn 0 0 [sym 2 0 2, node .strLit 0 0 []], node .call 0 0 [sym 4 0 3, sym 3 0 4]]

def graph : Graph := graphOf routine symbols

theorem structured : routine.body.Structured := by
  intro m hm
  simp only [routine, node, sym, Node.preorder, Node.preorderAll, List.mem_cons,
    List.cons_append, List.nil_append, List.not_mem_nil, or_false] at hm
  rcases hm with rfl | rfl | rfl | rfl | rfl | rfl | rfl | rfl | rfl | rfl | rfl | rfl <;> decide

theorem usedEarly_y : graph.UsedEarly 3 0 := by
  refine ⟨5, .use (sym 3 0 4), ?_, rfl, sym 3 0 4, rfl, rfl⟩
  refine .step rfl ?_ (.access rfl rfl) <| .step rfl ?_ (.branch rfl) <|
    .step rfl ?_ (.access rfl rfl) <| .refl 5
  all_goals rintro ⟨n, hn, hv⟩
  · cases hn
  · cases hn
  · cases hn
    cases hv

end Early

open Early Sample in
/-- The write to `x` is the first one, and `y` is read uninitialized. -/
theorem entry_sound_early : routine.graph symbols {} = .ok graph ∧
    Oracle.isFirstWrite ⟨graph, none⟩ (sym 2 0 2) = .ok true ∧
    (∃ m, (sym 2 0 2).skipConv = .ok m ∧ ∀ {p i}, graph.code[p]? = some i → i.isAt m = true →
      ¬ ∃ a next j, graph.Way (fun _ => True) 0 a ∧ graph.code[a]? = some j ∧
        Graph.Overlaps m j ∧ graph.Step a next ∧ graph.Way (fun _ => True) next p) ∧
    3 ∈ graph.uninit symbols := by
  have hg : routine.graph symbols {} = .ok graph := rfl
  have hfirst : Oracle.isFirstWrite ⟨graph, none⟩ (sym 2 0 2) = .ok true := by decide +kernel
  have hsound := Oracle.entry_sound (o := ⟨graph, none⟩) hg structured (by decide)
  exact ⟨hg, hfirst, hsound.1 hfirst, hsound.2 (by decide) usedEarly_y⟩

end Lifecycle
