import Lifecycle.Proofs.Flow.LastRead

/-!
# Ways through structured code

Structured code that nobody leaves early is `Inner`: each of its instructions leads on within it or
to its end. There is a way through such code (`Tidy.through`), one over each of its accesses
(`Tidy.via`), and what ways there are in it does not depend on where it stands (`Way.copy`).
-/

namespace Lifecycle

namespace Instr

inductive Goes : Instr → Nat → Prop
  | access {i : Instr} {n : Node} (h : i.access? = some n) : Goes i 1
  | goto (n : Node) (d : Nat) : Goes (.goto n (.by d)) d
  | stay (n : Node) (d : Nat) : Goes (.fork n d) 1
  | branch (n : Node) (d : Nat) : Goes (.fork n d) d

def Reads (x : SymRef) (i : Instr) : Prop := ∃ n, i = .use n ∧ n.isSym (some x) = true

def Writes (x : SymRef) (i : Instr) : Prop := ∃ n, i = .define n ∧ n.isSym (some x) = true

def Touches (x : SymRef) (i : Instr) : Prop := ∃ n, i.access? = some n ∧ n.isSym (some x) = true

end Instr

namespace Graph

variable {g : Graph} {i j o pc a b : Nat} {cs d : List Instr} {x : Instr} {P Q : Instr → Prop}

theorem step_of_goes (h : g.code[pc]? = some x) (hx : x.Goes k) : g.Step pc (pc + k) := by
  cases hx with
  | access ha => exact .access h ha
  | goto n => exact .goto h
  | stay => exact .stay h
  | branch => exact .branch h

theorem HasAt.getElem? (hg : g.HasAt i cs) (ho : o < cs.length) : g.code[i + o]? = cs[o]? := by
  obtain ⟨t, ht⟩ := hg
  have h := congrArg (fun l => l[o]?) ht
  simp only [List.getElem?_append_left ho, List.getElem?_drop] at h
  rw [h, Array.getElem?_toList]

theorem HasAt.get (hg : g.HasAt i cs) (h : cs[o]? = some x) : g.code[i + o]? = some x := by
  obtain ⟨ho, -⟩ := List.getElem?_eq_some_iff.1 h
  rw [hg.getElem? ho, h]

theorem length_roundsCode (cond body : List Instr) : ∀ k : Nat,
    (roundsCode n cond body k).length = k * (cond.length + 1 + body.length)
  | 0 => by simp [roundsCode]
  | k + 1 => by
    rw [roundsCode, Nat.succ_mul]
    simp only [List.length_append, List.length_cons, length_roundsCode cond body k]
    omega

/-! ## Ways -/

theorem Way.trans (h : g.Way P a b) (h' : g.Way P b e) : g.Way P a e := by
  induction h with
  | refl => exact h'
  | step hc hp hs _ ih => exact .step hc hp hs (ih h')

theorem Way.mono (h : g.Way P a b) (hpq : ∀ i, P i → Q i) : g.Way Q a b := by
  induction h with
  | refl => exact .refl _
  | step hc hp hs _ ih => exact .step hc (hpq _ hp) hs ih

theorem way_one (h : g.code[pc]? = some x) (hp : P x) (hx : x.Goes k) : g.Way P pc (pc + k) :=
  .step h hp (step_of_goes h hx) (.refl _)

/-! ## Code that nobody leaves -/

/-- Every instruction leads on within the code or to its end, open jumps apart. -/
structure Inward (cs : List Instr) : Prop where
  goes : ∀ {o x k}, cs[o]? = some x → x.Goes k → 0 < k ∧ o + k ≤ cs.length

theorem inward_nil : Inward [] where
  goes h := by cases h

theorem Inward.append (hc : Inward cs) (hd : Inward d) : Inward (cs ++ d) where
  goes {o x k} h hx := by
    rw [List.length_append]
    rcases Nat.lt_or_ge o cs.length with ho | ho
    · rw [List.getElem?_append_left ho] at h
      have := hc.goes h hx
      omega
    · rw [List.getElem?_append_right ho] at h
      have := hd.goes h hx
      omega

theorem Inward.cons (hc : Inward cs) (hx : ∀ {k}, x.Goes k → 0 < k ∧ k ≤ cs.length + 1) :
    Inward (x :: cs) where
  goes {o y k} h hy := by
    rw [List.length_cons]
    rcases o with _ | o
    · cases h
      have := hx hy
      omega
    · have := hc.goes h hy
      omega

theorem Inward.fork (hc : Inward cs) (n : Node) (he : 0 < e) (hle : e ≤ cs.length + 1) :
    Inward (.fork n e :: cs) := by
  refine hc.cons fun h => ?_
  cases h with
  | access h => cases h
  | stay => omega
  | branch => omega

theorem Inward.arm (hc : Inward cs) (hd : Inward d) (n : Node) : Inward (armCode n cs d) := by
  have hjump : Inward (.goto n (.by (d.length + 1)) :: d) := by
    refine hd.cons fun h => ?_
    cases h with
    | access h => cases h
    | goto => omega
  refine (hc.append hjump).fork n (by omega) ?_
  rw [List.length_append, List.length_cons]
  omega

structure Inner (cs : List Instr) : Prop extends Inward cs where
  jump : ∀ {n j}, Instr.goto n j ∈ cs → ∃ k, j = .by k

def Stays (cs : List Instr) : Prop := ∀ n, Instr.goto n .exit ∉ cs

theorem Tidy.inward (hc : Tidy cs) : Inward cs := by
  induction hc with
  | nil => exact inward_nil
  | @access y n h =>
    refine inward_nil.cons fun hy => ?_
    cases hy with
    | access => simp
    | goto => cases h
    | stay => cases h
    | branch => cases h
  | exit n =>
    refine inward_nil.cons fun hy => ?_
    cases hy with
    | access h => cases h
  | append _ _ ihc ihd => exact ihc.append ihd
  | @skip n cs _ ih => exact ih.fork n (by omega) (Nat.le_refl _)
  | arm n _ _ ihb ihr => exact ihb.arm ihr n

theorem Tidy.inner (hc : Tidy cs) (hs : Stays cs) : Inner cs where
  toInward := hc.inward
  jump h := (hc.jump h).resolve_right fun he => hs _ (he ▸ h)

theorem Step.goes (hs : g.Step pc next) (h : g.code[pc]? = some x) :
    (∃ k, x.Goes k ∧ next = pc + k) ∨
      ∃ n j, x = .goto n j ∧ (∀ d, j ≠ .by d) ∧ next = pc + j.dist pc := by
  cases hs with
  | access hc ha =>
    obtain rfl := Option.some.inj (hc.symm.trans h)
    exact .inl ⟨1, .access ha, rfl⟩
  | @goto n j hc =>
    obtain rfl := Option.some.inj (hc.symm.trans h)
    cases j with
    | «by» d => exact .inl ⟨d, .goto n d, rfl⟩
    | _ => exact .inr ⟨n, _, rfl, by simp, rfl⟩
  | stay hc =>
    obtain rfl := Option.some.inj (hc.symm.trans h)
    exact .inl ⟨1, .stay _ _, rfl⟩
  | @branch n d hc =>
    obtain rfl := Option.some.inj (hc.symm.trans h)
    exact .inl ⟨d, .branch _ _, rfl⟩

theorem Inner.step (hc : Inner cs) (hg : g.HasAt i cs) (ho : o < cs.length) {next : Nat}
    (hs : g.Step (i + o) next) : ∃ y k, cs[o]? = some y ∧ y.Goes k ∧ next = i + (o + k) := by
  have hy : cs[o]? = some cs[o] := List.getElem?_eq_getElem ho
  rcases hs.goes (hg.get hy) with ⟨k, hk, rfl⟩ | ⟨n, j, he, hopen, -⟩
  · exact ⟨_, k, hy, hk, Nat.add_assoc ..⟩
  · obtain ⟨d, rfl⟩ := hc.jump (n := n) (j := j) (he ▸ List.getElem_mem ho)
    exact absurd rfl (hopen d)

/-- A way from a place in the code, seen from a copy of the code: it stays within, or it goes
through to the end. -/
theorem Way.copy (hc : Inner cs) (hi : g.HasAt i cs) (hj : g.HasAt j cs) (hw : g.Way P a b) :
    ∀ {o}, a = i + o → o ≤ cs.length →
      (∃ o', b = i + o' ∧ o' < cs.length ∧ g.Way P (j + o) (j + o')) ∨
        g.Way P (j + o) (j + cs.length) ∧ g.Way P (i + cs.length) b := by
  induction hw with
  | refl pc =>
    intro o ha ho
    rcases Nat.lt_or_ge o cs.length with hlt | hge
    · exact .inl ⟨o, ha, hlt, .refl _⟩
    · obtain rfl : o = cs.length := by omega
      subst ha
      exact .inr ⟨.refl _, .refl _⟩
  | @step pc next last y h hp hs hw ih =>
    intro o ha ho
    subst ha
    rcases Nat.lt_or_ge o cs.length with hlt | hge
    · obtain ⟨z, k, hz, hk, rfl⟩ := hc.step hi hlt hs
      have hzy : z = y := by
        have := hi.get hz
        rw [h] at this
        exact (Option.some.inj this).symm
      subst hzy
      have hstep : g.Step (j + o) (j + (o + k)) := by
        rw [← Nat.add_assoc]
        exact step_of_goes (hj.get hz) hk
      rcases ih rfl (hc.goes hz hk).2 with ⟨o', hb, ho', hw'⟩ | ⟨hw', hrest⟩
      · exact .inl ⟨o', hb, ho', .step (hj.get hz) hp hstep hw'⟩
      · exact .inr ⟨.step (hj.get hz) hp hstep hw', hrest⟩
    · obtain rfl : o = cs.length := by omega
      exact .inr ⟨.refl _, .step h hp hs hw⟩

theorem Tidy.through (hc : Tidy cs) (hs : Stays cs) : ∀ {i}, g.HasAt i cs → (∀ y ∈ cs, P y) →
    g.Way P i (i + cs.length) := by
  induction hc with
  | nil => exact fun _ _ => .refl _
  | access h => exact fun hg hp => way_one hg.head (hp _ (by simp)) (.access h)
  | exit n => exact absurd (List.mem_singleton.2 rfl) (hs n)
  | @append cs d _ _ ihc ihd =>
    intro i hg hp
    rw [List.length_append, ← Nat.add_assoc]
    exact (ihc (fun n h => hs n (by simp [h])) hg.left fun y hy => hp y (by simp [hy])).trans
      (ihd (fun n h => hs n (by simp [h])) hg.right fun y hy => hp y (by simp [hy]))
  | @skip n cs _ ih =>
    intro i hg hp
    exact way_one hg.head (hp _ (by simp)) (.branch n _)
  | @arm n body rest _ _ ihb ihr =>
    intro i hg hp
    obtain ⟨hfork, -, -, hrest⟩ := hg.arm
    have hskip := way_one hfork (hp _ (by simp [armCode])) (.branch n (body.length + 2))
    have hthrough := ihr (fun m h => hs m (by simp [armCode, h])) hrest
      fun y hy => hp y (by simp [armCode, hy])
    rw [length_armCode, ← Nat.add_assoc]
    exact hskip.trans hthrough

theorem Tidy.via (ha : x.access? = some n) (hc : Tidy cs) (hs : Stays cs) :
    ∀ {i}, g.HasAt i cs → x ∈ cs → ∃ a, g.code[a]? = some x ∧ g.Way (fun _ => True) i a ∧
      g.Way (fun _ => True) (a + 1) (i + cs.length) := by
  induction hc with
  | nil => exact nofun
  | access h =>
    intro i hg hx
    obtain rfl := List.mem_singleton.1 hx
    exact ⟨i, hg.head, .refl _, .refl _⟩
  | exit m => exact absurd (List.mem_singleton.2 rfl) (hs m)
  | @append cs d hc hd ihc ihd =>
    intro i hg hx
    have hsc : Stays cs := fun m h => hs m (by simp [h])
    have hsd : Stays d := fun m h => hs m (by simp [h])
    rw [List.length_append, ← Nat.add_assoc]
    rcases List.mem_append.1 hx with hx | hx
    · obtain ⟨a, hcode, hin, hout⟩ := ihc hsc hg.left hx
      exact ⟨a, hcode, hin, hout.trans (hd.through hsd hg.right fun _ _ => trivial)⟩
    · obtain ⟨a, hcode, hin, hout⟩ := ihd hsd hg.right hx
      exact ⟨a, hcode, (hc.through hsc hg.left fun _ _ => trivial).trans hin, hout⟩
  | @skip m cs _ ih =>
    intro i hg hx
    rcases List.mem_cons.1 hx with rfl | hx
    · cases ha
    · obtain ⟨a, hcode, hin, hout⟩ := ih (fun m h => hs m (by simp [h])) hg.tail hx
      refine ⟨a, hcode, (way_one hg.head trivial (.stay m _)).trans hin, ?_⟩
      rwa [show i + 1 + cs.length = i + (cs.length + 1) by omega] at hout
  | @arm m body rest hb hr ihb ihr =>
    intro i hg hx
    have hsb : Stays body := fun m h => hs m (by simp [armCode, h])
    have hsr : Stays rest := fun m h => hs m (by simp [armCode, h])
    obtain ⟨hfork, hbody, hgoto, hrest⟩ := hg.arm
    rw [length_armCode]
    simp only [armCode, List.cons_append, List.mem_cons, List.mem_append] at hx
    rcases hx with rfl | hx | rfl | hx
    · cases ha
    · obtain ⟨a, hcode, hin, hout⟩ := ihb hsb hbody hx
      refine ⟨a, hcode, (way_one hfork trivial (.stay m _)).trans hin, hout.trans ?_⟩
      have := way_one (P := fun _ => True) hgoto trivial (.goto m _)
      rwa [show i + 1 + body.length + (rest.length + 1) = i + (body.length + 2 + rest.length)
        by omega] at this
    · cases ha
    · obtain ⟨a, hcode, hin, hout⟩ := ihr hsr hrest hx
      refine ⟨a, hcode, (way_one hfork trivial (.branch m _)).trans hin, ?_⟩
      rwa [Nat.add_assoc] at hout

/-! ## Awaited and touched variables -/

variable {v : SymRef}

/-- Some way from here reads the variable before it writes it. -/
def Awaits (g : Graph) (v : SymRef) (pc : Nat) : Prop :=
  ∃ last i, g.Way (¬ ·.Writes v) pc last ∧ g.code[last]? = some i ∧ i.Reads v

def Touched (g : Graph) (v : SymRef) (pc : Nat) : Prop :=
  ∃ a i, g.Way (fun _ => True) 0 a ∧ g.code[a]? = some i ∧ i.Touches v ∧
    g.Way (fun _ => True) (a + 1) pc

def Named (g : Graph) : Prop :=
  ∀ {pc : Nat} {i n}, g.code[pc]? = some i → i.access? = some n → ∃ v, n.isSym (some v) = true

theorem awaits_of_way (hw : g.Way (¬ ·.Writes v) a b) (h : g.Awaits v b) : g.Awaits v a := by
  obtain ⟨last, i, hb, hl, hi⟩ := h
  exact ⟨last, i, hw.trans hb, hl, hi⟩

theorem awaits_of_reads (h : g.code[pc]? = some x) (hx : x.Reads v) : g.Awaits v pc :=
  ⟨pc, x, .refl _, h, hx⟩

theorem Touched.trans (h : g.Touched v a) (hw : g.Way (fun _ => True) a b) : g.Touched v b := by
  obtain ⟨p, i, h0, hp, hi, ha⟩ := h
  exact ⟨p, i, h0, hp, hi, ha.trans hw⟩

theorem Tidy.touched (hc : Tidy cs) (hs : Stays cs) (hg : g.HasAt i cs)
    (hw : g.Way (fun _ => True) 0 i) (hx : x ∈ cs) (ht : x.Touches v) :
    g.Touched v (i + cs.length) := by
  obtain ⟨n, ha, hn⟩ := ht
  obtain ⟨p, hp, hin, hout⟩ := hc.via ha hs hg hx
  exact ⟨p, x, hw.trans hin, hp, ⟨n, ha, hn⟩, hout⟩

/-- What is awaited at the start of the code is awaited at the start of a copy of it, or behind the
code. -/
theorem Awaits.copy (hc : Inner cs) (hi : g.HasAt i cs) (hj : g.HasAt j cs) (h : g.Awaits v i) :
    g.Awaits v j ∨ g.Awaits v (i + cs.length) := by
  obtain ⟨last, y, hw, hl, hy⟩ := h
  rcases hw.copy hc hi hj (o := 0) rfl (Nat.zero_le _) with ⟨o, rfl, ho, hw⟩ | ⟨-, hw⟩
  · refine .inl ⟨j + o, y, hw, ?_, hy⟩
    rw [hj.getElem? ho, ← hi.getElem? ho, hl]
  · exact .inr ⟨last, y, hw, hl, hy⟩

end Graph

end Lifecycle
