import Mathlib.Tactic.Linarith
import Mathlib.Tactic.Ring
import Lifecycle.Proofs.Flow.Finally

/-!
# Scans end

Lowering leaves no jump open, and every jump leads forward: to a place in the graph, to its end, or
out of the routine (`forward_graph`). A scan of such a graph comes further with every step.
-/

namespace Lifecycle

namespace Graph

/-! ## Jumps lead forward -/

/-- Every jump leads forward. -/
structure Onward (g : Graph) : Prop where
  goto : ∀ {pc : Nat} {n : Node} {j : Jump}, g.code[pc]? = some (.goto n j) → 1 ≤ j.dist pc
  fork : ∀ {pc d : Nat} {n : Node}, g.code[pc]? = some (.fork n d) → 1 ≤ d

/-- Every jump leads forward, no further than to the end unless it leaves the routine, and none is
left open. -/
structure Forward (g : Graph) : Prop extends g.Onward where
  closed : ∀ {pc : Nat} {n : Node} {j : Jump}, g.code[pc]? = some (.goto n j) →
    (∃ d, j = .by d) ∨ j = .exit
  target : ∀ {pc : Nat} {n : Node} {j : Jump}, g.code[pc]? = some (.goto n j) →
    pc + j.dist pc ≤ g.size ∨ pc + j.dist pc = exitTarget
  branch : ∀ {pc d : Nat} {n : Node}, g.code[pc]? = some (.fork n d) → pc + d ≤ g.size

variable {g : Graph} {q : Scan}

theorem forward_graph {r : Routine}
    (hg : r.graph ss types = .ok g) (hsize : g.size < exitTarget) : g.Forward := by
  obtain ⟨p, -, hcode, hw, -⟩ := fits_graph hg
  have hin := hw.inScope.inward
  have hlen : p.code.length = g.size := hcode ▸ Array.length_toList
  have hget : ∀ {pc : Nat} {x : Instr}, g.code[pc]? = some x → p.code[pc]? = some x := by
    intro pc x h
    rw [← hcode, Array.getElem?_toList, h]
  have hlt : ∀ {pc : Nat} {x : Instr}, g.code[pc]? = some x → pc < g.size := fun h =>
    (Array.getElem?_eq_some_iff.1 h).1
  -- an open jump would need a block or a `try` around the whole body
  have hclosed : ∀ {pc : Nat} {n : Node} {j : Jump}, g.code[pc]? = some (.goto n j) →
      (∃ d, j = .by d) ∨ j = .exit := by
    intro pc n j h
    have hj := hw.inScope.allowed (List.mem_of_getElem? (hget h))
    cases j with
    | «by» d => exact .inl ⟨d, rfl⟩
    | exit => exact .inr rfl
    | leave k => exact absurd hj.1 (Nat.not_lt_zero k)
    | unwind => cases hj
  have hgoto : ∀ {pc : Nat} {n : Node} {j : Jump}, g.code[pc]? = some (.goto n j) →
      1 ≤ j.dist pc ∧ (pc + j.dist pc ≤ g.size ∨ pc + j.dist pc = exitTarget) := by
    intro pc n j h
    rcases hclosed h with ⟨d, rfl⟩ | rfl
    · have := hin.goes (hget h) (.goto n d)
      simp only [Jump.dist]
      omega
    · have := hlt h
      simp only [Jump.dist]
      omega
  have hfork : ∀ {pc d : Nat} {n : Node}, g.code[pc]? = some (.fork n d) →
      1 ≤ d ∧ pc + d ≤ g.size := by
    intro pc d n h
    have := hin.goes (hget h) (.branch n d)
    omega
  exact ⟨⟨fun h => (hgoto h).1, fun h => (hfork h).1⟩, hclosed, fun h => (hgoto h).2,
    fun h => (hfork h).2⟩

/-! ## What scans find -/

/-- Where a scan from `s` can stand: at the end of a way over what it passes, or past the end. -/
def Reached (g : Graph) (q : Scan) (s pc : Nat) : Prop := g.Way (Passes q) s pc ∨ g.size ≤ pc

theorem Reached.step {s pc next : Nat} {i : Instr} (h : g.Reached q s pc)
    (hc : g.code[pc]? = some i) (hp : Passes q i) (hs : g.Step pc next) : g.Reached q s next := by
  have hway := h.resolve_right (Nat.not_le.2 (Array.getElem?_eq_some_iff.1 hc).1)
  exact .inl (hway.trans (.step hc hp hs (.refl _)))

/-- What a scan finds at an access, or where it stops short of the end, can be reached over what it
passes. -/
def Found (g : Graph) (q : Scan) (s : Nat) : ScanEnd → Prop
  | .at e => g.Reached q s e
  | .clash w => ∃ last i, g.Way (Passes q) s last ∧ g.code[last]? = some i ∧
      i.access? = some w ∧ q.judge i = .clash
  | .lost => True

mutual

theorem Scans.found : ∀ {pc u : Nat} {r : ScanEnd},
    g.Scans q pc u r → g.Reached q s pc → g.Found q s r
  | _, _, _, .bound _, hw => hw
  | _, _, _, .beyond _, hw => hw
  | _, _, _, .goto _ hc hs, hw => hs.found (hw.step hc (.inl rfl) (.goto hc))
  | _, _, _, .fork _ hc hf hs, hw =>
    hs.found (hf.found (hw.step hc (.inl rfl) (.stay hc)) (hw.step hc (.inl rfl) (.branch hc)))
  | _, _, _, .forkClash _ hc hf, hw =>
    hf.found (hw.step hc (.inl rfl) (.stay hc)) (hw.step hc (.inl rfl) (.branch hc))
  | _, _, _, .goOn _ hc ha hj hs, hw => hs.found (hw.step hc (.inr hj) (.access hc ha))
  | _, _, _, .settled _ _ _ _, _ => .inr (Nat.le_refl _)
  | pc, _, _, .clash _ hc ha hj, hw => by
    have hway := hw.resolve_right (Nat.not_le.2 (Array.getElem?_eq_some_iff.1 hc).1)
    exact ⟨pc, _, hway, hc, ha, hj⟩

theorem ScansFork.found : ∀ {a b u : Nat} {r : ScanEnd},
    g.ScansFork q a b u r → g.Reached q s a → g.Reached q s b → g.Found q s r
  | _, _, _, _, .met _ _, ha, _ => ha
  | a, b, _, _, .apart _ _, ha, hb => by
    rcases Nat.le_total a b with hle | hle
    · rwa [Nat.min_eq_left hle]
    · rwa [Nat.min_eq_right hle]
  | _, _, _, _, .left _ _ hs hf, ha, hb => hf.found (hs.found ha) hb
  | _, _, _, _, .right _ _ hs hf, ha, hb => hf.found ha (hs.found hb)
  | _, _, _, _, .leftClash _ _ hs, ha, _ => hs.found ha
  | _, _, _, _, .rightClash _ _ hs, _, hb => hs.found hb

end

/-! ## Scans come further -/

mutual

theorem Scans.ahead : ∀ {pc u : Nat} {r : ScanEnd}, g.Scans q pc u r → p ≤ pc → EndsFrom p r
  | _, _, _, .bound _, h => h
  | _, _, _, .beyond _, h => h
  | _, _, _, .goto _ _ hs, h => hs.ahead (Nat.le_add_right_of_le h)
  | _, _, _, .fork _ _ hf hs, h =>
    hs.ahead (hf.ahead (Nat.le_add_right_of_le h) (Nat.le_add_right_of_le h))
  | _, _, _, .forkClash _ _ _, _ => trivial
  | _, _, _, .goOn _ _ _ _ hs, h => hs.ahead (Nat.le_add_right_of_le h)
  | _, _, _, .settled _ hc _ _, h =>
      Nat.le_trans h (Nat.le_of_lt (Array.getElem?_eq_some_iff.1 hc).1)
  | _, _, _, .clash _ _ _ _, _ => trivial

theorem ScansFork.ahead : ∀ {a b u : Nat} {r : ScanEnd},
    g.ScansFork q a b u r → p ≤ a → p ≤ b → EndsFrom p r
  | _, _, _, _, .met _ _, ha, _ => ha
  | _, _, _, _, .apart _ _, ha, hb => Nat.le_min.2 ⟨ha, hb⟩
  | _, _, _, _, .left _ _ hs hf, ha, hb => hf.ahead (hs.ahead ha) hb
  | _, _, _, _, .right _ _ hs hf, ha, hb => hf.ahead ha (hs.ahead hb)
  | _, _, _, _, .leftClash _ _ _, _, _ => trivial
  | _, _, _, _, .rightClash _ _ _, _, _ => trivial

end

theorem min_le_of_scanFork (h : g.scanFork q k a b u = .at e) : min a b ≤ e := by
  have := scansFork_of_scanFork (g := g) (q := q) k a b u (by simp [h])
  rw [h] at this
  exact this.ahead (Nat.min_le_left _ _) (Nat.min_le_right _ _)

theorem Onward.lt_of_scan (hg : g.Onward) (hu : pc < u)
    (hpc : pc < g.size) (h : g.scan q k pc u = .at e) : pc < e := by
  cases scans_of_scan_at h with
  | bound hle => omega
  | beyond hc => exact absurd hpc (Nat.not_lt.2 (Array.getElem?_eq_none_iff.1 hc))
  | goto _ hc hs => exact hs.ahead (p := pc + 1) (Nat.add_le_add_left (hg.goto hc) pc)
  | fork _ hc hf hs =>
    exact hs.ahead (p := pc + 1) (hf.ahead (Nat.le_refl _) (Nat.add_le_add_left (hg.fork hc) pc))
  | goOn _ _ _ _ hs => exact hs.ahead (p := pc + 1) (Nat.le_refl _)
  | settled => exact hpc

/-! ## Enough steps -/

def stepsFor (f : Nat) : Nat := f * f + f + 1

theorem stepsFor_succ (f : Nat) : stepsFor (f + 1) = stepsFor f + (2 * f + 2) := by
  simp only [stepsFor]
  ring

theorem stepsFor_mono (h : e ≤ f) : stepsFor e ≤ stepsFor f := by
  simp only [stepsFor]
  have := Nat.mul_le_mul h h
  omega

theorem stepsFor_lt (h : e < f) : stepsFor e + (2 * e + 2) ≤ stepsFor f := by
  rw [← stepsFor_succ]
  exact stepsFor_mono h

/-- Two ways that are not given up can be followed further: the one that is behind stands before the
bound, and within the graph. -/
def Steady (g : Graph) (q : Scan) (top : Nat) : Prop :=
  ∀ {a b u}, u ≤ top → a ≠ b → q.apart a b u = false → min a b < u ∧ min a b < g.size

mutual

theorem scan_ne_lost (hg : g.Onward) (hq : g.Steady q top) :
    ∀ (k pc u : Nat), u ≤ top → stepsFor (g.size - pc) ≤ k → g.scan q k pc u ≠ .lost
  | 0, pc, u, _, hk => by simp [stepsFor] at hk
  | k + 1, pc, u, htop, hk => by
    rcases Nat.lt_or_ge pc u with hu | hu
    · rcases g.code_cases pc with hc | ⟨n, j, hc⟩ | ⟨n, d, hc⟩ | ⟨i, n, hc, ha⟩
      · rw [scan, if_neg (by omega), hc]
        simp
      · have hpc : pc < g.size := (Array.getElem?_eq_some_iff.1 hc).1
        have hd := hg.goto hc
        rw [scan, if_neg (by omega), hc]
        refine scan_ne_lost hg hq k _ u htop ?_
        have := stepsFor_lt (e := g.size - (pc + j.dist pc)) (f := g.size - pc) (by omega)
        omega
      · have hpc : pc < g.size := (Array.getElem?_eq_some_iff.1 hc).1
        have hd := hg.fork hc
        have hless := stepsFor_lt (e := g.size - (pc + 1)) (f := g.size - pc) (by omega)
        rw [scan, if_neg (by omega), hc]
        dsimp only
        have hf := scanFork_ne_lost hg hq k (pc + 1) (pc + d) u htop (by
          have : max (g.size - (pc + 1)) (g.size - (pc + d)) = g.size - (pc + 1) := by omega
          rw [this]
          omega)
        rcases hs : g.scanFork q k (pc + 1) (pc + d) u with m | w | _
        · have hm := min_le_of_scanFork hs
          refine scan_ne_lost hg hq k m u htop ?_
          have := stepsFor_mono (e := g.size - m) (f := g.size - (pc + 1)) (by omega)
          omega
        · simp
        · exact absurd hs hf
      · have hpc : pc < g.size := (Array.getElem?_eq_some_iff.1 hc).1
        rw [scan_access hc ha hu]
        rcases hj : q.judge i with _ | _ | _
        · refine scan_ne_lost hg hq k _ u htop ?_
          have := stepsFor_lt (e := g.size - (pc + 1)) (f := g.size - pc) (by omega)
          omega
        · simp
        · simp
    · rw [scan, if_pos hu]
      simp

/-- Each move brings one of the cursors further, and is a scan from the one that is behind. -/
theorem scanFork_ne_lost (hg : g.Onward) (hq : g.Steady q top) : ∀ (k a b u : Nat), u ≤ top →
      stepsFor (max (g.size - a) (g.size - b)) + (g.size - a) + (g.size - b) + 1 ≤ k →
        g.scanFork q k a b u ≠ .lost
  | 0, a, b, u, _, hk => by omega
  | k + 1, a, b, u, htop, hk => by
    rw [scanFork]
    split_ifs with heq hap hlt
    · simp
    · simp
    · obtain ⟨hau, ha⟩ := hq htop heq (by simpa using hap)
      rw [Nat.min_eq_left (by omega)] at hau ha
      have hs := scan_ne_lost hg hq k a (min b u) (by omega) (by
        have := stepsFor_mono (e := g.size - a) (f := max (g.size - a) (g.size - b)) (by omega)
        omega)
      rcases hc : g.scan q k a (min b u) with a' | w | _
      · have hlt' := hg.lt_of_scan (by omega) ha hc
        refine scanFork_ne_lost hg hq k a' b u htop ?_
        have := stepsFor_mono (e := max (g.size - a') (g.size - b))
          (f := max (g.size - a) (g.size - b)) (by omega)
        omega
      · simp
      · exact absurd hc hs
    · obtain ⟨hbu, hb⟩ := hq htop heq (by simpa using hap)
      rw [Nat.min_eq_right (by omega)] at hbu hb
      have hs := scan_ne_lost hg hq k b (min a u) (by omega) (by
        have := stepsFor_mono (e := g.size - b) (f := max (g.size - a) (g.size - b)) (by omega)
        omega)
      rcases hc : g.scan q k b (min a u) with b' | w | _
      · have hlt' := hg.lt_of_scan (by omega) hb hc
        refine scanFork_ne_lost hg hq k a b' u htop ?_
        have := stepsFor_mono (e := max (g.size - a) (g.size - b'))
          (f := max (g.size - a) (g.size - b)) (by omega)
        omega
      · simp
      · exact absurd hc hs

end

theorem stepsFor_le_scanDepth (n pc : Nat) : stepsFor (n - pc) ≤ scanDepth n := by
  refine (stepsFor_mono (Nat.sub_le n pc)).trans ?_
  simp only [stepsFor, scanDepth]
  nlinarith

/-- The scan from `pc` up to `u` ends with the steps that are provided, as it would with any number
of them, and where it ends at a place it has come further. -/
structure Completes (g : Graph) (q : Scan) (pc u : Nat) : Prop where
  ends : g.Scans q pc u (g.scan q (scanDepth g.size) pc u)
  further : ∀ {e}, g.scan q (scanDepth g.size) pc u = .at e → pc < u → pc < g.size → pc < e

theorem Onward.completes (hg : g.Onward) (hq : g.Steady q top)
    (hu : u ≤ top) : g.Completes q pc u where
  ends := scans_of_scan _ pc u (scan_ne_lost hg hq _ pc u hu (stepsFor_le_scanDepth _ _))
  further he hpu hpc := hg.lt_of_scan hpu hpc he

theorem steady_lastRead (g : Graph) (loc : Node) (top : Nat) :
    g.Steady (g.lastReadScan loc) top := by
  intro a b u _ hab h
  simp only [lastReadScan, Bool.or_eq_false_iff, decide_eq_false_iff_not] at h
  omega

theorem steady_of_apart (h : ∀ a b u, q.apart a b u = decide (u < max a b)) :
    g.Steady q g.size := by
  intro a b u hu hab hap
  rw [h, decide_eq_false_iff_not] at hap
  omega

/-! ## The scan for early reads -/

def InitState.after (ss : Symbols) (st : InitState) : Instr → InitState
  | .use loc =>
    { st with
      pc := st.pc + 1
      early := match ownVariable? ss loc with
        | some v => if st.written.contains v || st.early.contains v then st.early
          else v :: st.early
        | none => st.early }
  | .define loc =>
    { st with
      pc := st.pc + 1
      written := match loc.head? with
        | some h =>
          match h.sym with
          | some v => if h.kind = .sym && !st.written.contains v then v :: st.written
            else st.written
          | none => st.written
        | none => st.written }
  | .goto _ _ | .fork _ _ => st

def InitState.joined (st : InitState) : Nat × List SymRef × List SymRef × List SymRef → InitState
  | (pc, a, b, early) =>
    ⟨pc, a.filter (fun v => b.contains v && !st.written.contains v) ++ st.written, early⟩

mutual

/-- The scan for early reads goes from one state to another. -/
inductive Inits (g : Graph) (ss : Symbols) : InitState → Nat → InitState → Prop
  | bound {st : InitState} {u : Nat} (hu : u ≤ st.pc) : Inits g ss st u st
  | beyond {st : InitState} {u : Nat} (h : g.code[st.pc]? = none) : Inits g ss st u st
  | goto {st st' : InitState} {u : Nat} {n : Node} {j : Jump} (hu : st.pc < u)
      (h : g.code[st.pc]? = some (.goto n j))
      (hs : Inits g ss { st with pc := st.pc + j.dist st.pc } u st') : Inits g ss st u st'
  | fork {st st' : InitState} {u d : Nat} {n : Node}
      {meet : Nat × List SymRef × List SymRef × List SymRef} (hu : st.pc < u)
      (h : g.code[st.pc]? = some (.fork n d))
      (hf : InitsFork g ss { st with pc := st.pc + 1 } { st with pc := st.pc + d } u meet)
      (hs : Inits g ss (st.joined meet) u st') : Inits g ss st u st'
  | access {st st' : InitState} {u : Nat} {i : Instr} {n : Node} (hu : st.pc < u)
      (h : g.code[st.pc]? = some i) (ha : i.access? = some n)
      (hs : Inits g ss (st.after ss i) u st') : Inits g ss st u st'

inductive InitsFork (g : Graph) (ss : Symbols) : InitState → InitState → Nat →
    Nat × List SymRef × List SymRef × List SymRef → Prop
  | done {a b : InitState} {u : Nat} (h : a.pc = b.pc ∨ u < max a.pc b.pc) :
      InitsFork g ss a b u (min a.pc b.pc, a.written, b.written, a.early)
  | left {a b a' : InitState} {u : Nat} {meet : Nat × List SymRef × List SymRef × List SymRef}
      (hab : a.pc < b.pc) (hu : b.pc ≤ u) (hs : Inits g ss a (min b.pc u) a')
      (hf : InitsFork g ss a' { b with early := a'.early } u meet) : InitsFork g ss a b u meet
  | right {a b b' : InitState} {u : Nat} {meet : Nat × List SymRef × List SymRef × List SymRef}
      (hab : b.pc < a.pc) (hu : a.pc ≤ u) (hs : Inits g ss b (min a.pc u) b')
      (hf : InitsFork g ss { a with early := b'.early } b' u meet) : InitsFork g ss a b u meet

end

def walk : Scan where
  judge _ := .goOn
  apart a b u := u < max a b

section Equations

variable {g : Graph} {ss : Symbols} {k u d : Nat} {st : InitState} {i : Instr} {n : Node} {j : Jump}

theorem scanInit_goto (hu : st.pc < u) (h : g.code[st.pc]? = some (.goto n j)) :
    g.scanInit ss (k + 1) st u = g.scanInit ss k { st with pc := st.pc + j.dist st.pc } u := by
  rw [scanInit, if_neg (by omega), h]

theorem scanInit_fork (hu : st.pc < u) (h : g.code[st.pc]? = some (.fork n d)) :
    g.scanInit ss (k + 1) st u = g.scanInit ss k (st.joined
      (g.forkInit ss k { st with pc := st.pc + 1 } { st with pc := st.pc + d } u)) u := by
  rw [scanInit, if_neg (by omega), h]
  rfl

theorem scanInit_access (hu : st.pc < u) (h : g.code[st.pc]? = some i)
    (ha : i.access? = some n) : g.scanInit ss (k + 1) st u = g.scanInit ss k (st.after ss i) u := by
  rw [scanInit, if_neg (by omega), h]
  cases i with
  | goto n j => cases ha
  | fork n d => cases ha
  | define n => rfl
  | use n => rfl

theorem InitState.pc_after (ha : i.access? = some n) : (st.after ss i).pc = st.pc + 1 := by
  cases i with
  | goto n j => cases ha
  | fork n d => cases ha
  | define n => rfl
  | use n => rfl

end Equations

mutual

theorem inits_of_walk (ss : Symbols) : ∀ (k : Nat) (st : InitState) (u : Nat) {e : Nat},
    g.scan walk k st.pc u = .at e →
      g.Inits ss st u (g.scanInit ss k st u) ∧ (g.scanInit ss k st u).pc = e
  | 0, st, u, e, h => by simp [scan] at h
  | k + 1, st, u, e, h => by
    rcases Nat.lt_or_ge st.pc u with hu | hu
    · rcases g.code_cases st.pc with hc | ⟨n, j, hc⟩ | ⟨n, d, hc⟩ | ⟨i, n, hc, ha⟩
      · rw [scan, if_neg (by omega), hc] at h
        cases h
        rw [scanInit, if_neg (by omega), hc]
        exact ⟨.beyond hc, rfl⟩
      · rw [scan, if_neg (by omega), hc] at h
        rw [scanInit_goto hu hc]
        have := inits_of_walk ss k { st with pc := st.pc + j.dist st.pc } u h
        exact ⟨.goto hu hc this.1, this.2⟩
      · rw [scan, if_neg (by omega), hc] at h
        dsimp only at h
        rw [scanInit_fork hu hc]
        rcases hs : g.scanFork walk k (st.pc + 1) (st.pc + d) u with m | w | _ <;> rw [hs] at h
        · obtain ⟨hf, hm⟩ := initsFork_of_walk ss k { st with pc := st.pc + 1 }
            { st with pc := st.pc + d } u hs
          have hpc : (st.joined (g.forkInit ss k { st with pc := st.pc + 1 }
              { st with pc := st.pc + d } u)).pc = m := hm
          have := inits_of_walk ss k (st.joined (g.forkInit ss k { st with pc := st.pc + 1 }
            { st with pc := st.pc + d } u)) u (hpc ▸ h)
          exact ⟨.fork hu hc hf this.1, this.2⟩
        · cases h
        · cases h
      · rw [scan_access hc ha hu] at h
        rw [scanInit_access hu hc ha]
        have := inits_of_walk ss k (st.after ss i) u (InitState.pc_after ha ▸ h)
        exact ⟨.access hu hc ha this.1, this.2⟩
    · rw [scan, if_pos hu] at h
      cases h
      rw [scanInit, if_pos hu]
      exact ⟨.bound hu, rfl⟩

theorem initsFork_of_walk (ss : Symbols) : ∀ (k : Nat) (a b : InitState) (u : Nat)
    {e : Nat}, g.scanFork walk k a.pc b.pc u = .at e →
      g.InitsFork ss a b u (g.forkInit ss k a b u) ∧ (g.forkInit ss k a b u).1 = e
  | 0, a, b, u, e, h => by simp [scanFork] at h
  | k + 1, a, b, u, e, h => by
    have hap : walk.apart a.pc b.pc u = decide (u < max a.pc b.pc) := rfl
    rw [scanFork, hap] at h
    rw [forkInit]
    by_cases hdone : a.pc = b.pc ∨ u < max a.pc b.pc
    · rw [if_pos (by simpa using hdone)]
      refine ⟨.done hdone, ?_⟩
      split_ifs at h with heq hfar
      · cases h
        simp [heq]
      · cases h
        rfl
      · simp only [decide_eq_true_eq] at hfar
        omega
      · simp only [decide_eq_true_eq] at hfar
        omega
    · rw [if_neg (by simpa using hdone)]
      rw [if_neg (by omega), if_neg (by simp only [decide_eq_true_eq]; omega)] at h
      split_ifs at h ⊢ with hlt
      · rcases hs : g.scan walk k a.pc (min b.pc u) with a' | w | _ <;> rw [hs] at h
        · obtain ⟨hi, hpc⟩ := inits_of_walk ss k a (min b.pc u) hs
          have := initsFork_of_walk ss k (g.scanInit ss k a (min b.pc u))
            { b with early := (g.scanInit ss k a (min b.pc u)).early } u (hpc ▸ h)
          exact ⟨.left hlt (by omega) hi this.1, this.2⟩
        · cases h
        · cases h
      · rcases hs : g.scan walk k b.pc (min a.pc u) with b' | w | _ <;> rw [hs] at h
        · obtain ⟨hi, hpc⟩ := inits_of_walk ss k b (min a.pc u) hs
          have := initsFork_of_walk ss k { a with early := (g.scanInit ss k b (min a.pc u)).early }
            (g.scanInit ss k b (min a.pc u)) u (hpc ▸ h)
          exact ⟨.right (by omega) (by omega) hi this.1, this.2⟩
        · cases h
        · cases h

end

theorem Onward.walk_eq_at (hg : g.Onward) (pc : Nat) (hu : u ≤ g.size) :
    ∃ e, g.scan walk (scanDepth g.size) pc u = .at e := by
  have hlost := scan_ne_lost hg (steady_of_apart (q := walk) fun _ _ _ => rfl) _ pc u hu
    (stepsFor_le_scanDepth g.size pc)
  have hfound := (scans_of_scan _ pc u hlost).found (.inl (.refl pc))
  rcases hs : g.scan walk (scanDepth g.size) pc u with e | w | _
  · exact ⟨e, rfl⟩
  · rw [hs] at hfound
    obtain ⟨last, i, -, -, -, hj⟩ := hfound
    cases hj
  · exact absurd hs hlost

theorem Onward.inits (hg : g.Onward) (ss : Symbols) (st : InitState)
    (hu : u ≤ g.size) : g.Inits ss st u (g.scanInit ss (scanDepth g.size) st u) ∧
      (st.pc < u → st.pc < (g.scanInit ss (scanDepth g.size) st u).pc) := by
  obtain ⟨e, he⟩ := hg.walk_eq_at st.pc hu
  obtain ⟨hi, hpc⟩ := inits_of_walk ss _ st u he
  refine ⟨hi, fun hlt => ?_⟩
  rw [hpc]
  exact hg.lt_of_scan hlt (by omega) he

/-- The graph of a routine leads forward and has no open jump. On every such graph the scan for a
competing access ends from every place and for every bound, and so do the scan for an access before
a first write and the scan for early reads, for every bound within the graph. Each of them ends
behind the place where it began as soon as it looks at one instruction. -/
theorem forward_scans_end :
    (∀ (r : Routine) (ss : Symbols) (types : TypeTable) (g : Graph), r.graph ss types = .ok g →
      g.size < exitTarget → g.Forward) ∧
    ∀ g : Graph, g.Forward →
      (∀ loc pc u, g.Completes (g.lastReadScan loc) pc u) ∧
      (∀ loc pc u, u ≤ g.size → g.Completes (firstWriteScan loc) pc u) ∧
      ∀ ss st u, u ≤ g.size → g.Inits ss st u (g.scanInit ss (scanDepth g.size) st u) ∧
        (st.pc < u → st.pc < (g.scanInit ss (scanDepth g.size) st u).pc) := by
  refine ⟨fun r ss types g => forward_graph, fun g hg => ⟨fun loc pc u => ?_, fun loc pc u hu => ?_,
    fun ss st u hu => hg.inits ss st hu⟩⟩
  · exact hg.completes (g.steady_lastRead loc u) (Nat.le_refl u)
  · exact hg.completes (steady_of_apart fun _ _ _ => rfl) hu

end Graph

/-! ## A tangle of jumps -/

namespace Tangle

open Sample

def symbols : Symbols where
  all := #[{ name := "f", kind := .proc }, { name := "c", owner := some 0 },
    { name := "x", kind := .varLocal, owner := some 0 },
    { name := "L", kind := .label, owner := some 0 },
    { name := "use", kind := .proc, flags := .canRaise }]

def reading : Node := node .call 0 0 [sym 4 0 1, sym 2 0 2]

/-- A loop around a block around a `try`: its body leaves the block, its handler the loop, and what
raises in the body goes on in the handler. -/
def routine : Routine where
  sym := some 0
  params := [some 1]
  body := node .whileStmt 0 0 [sym 1 0 3, node .block 0 0 [sym 3 0 4, node .tryStmt 0 0 [
    node .stmtList 0 0 [reading, node .breakStmt 0 0 [sym 3 0 5]],
    node .exceptBranch 0 0 [node .breakStmt 0 0 [node .empty 0 0 []]],
    node .finallyBranch 0 0 [reading]]]]

end Tangle

open Tangle in
theorem forward_scans_end_tangle : let g := Sample.graphOf routine symbols
    routine.graph symbols {} = .ok g ∧ g.size = 30 ∧ g.Forward ∧
      g.Completes (g.lastReadScan (Sample.sym 2 0 2)) 0 g.size ∧
        g.Completes (Graph.firstWriteScan (Sample.sym 2 0 2)) 0 9 := by
  intro g
  have hg : routine.graph symbols {} = .ok g := rfl
  have hsize : g.size = 30 := rfl
  have hf := Graph.forward_scans_end.1 routine symbols {} g hg (by rw [hsize]; decide)
  obtain ⟨hlast, hfirst, -⟩ := Graph.forward_scans_end.2 g hf
  exact ⟨hg, hsize, hf, hlast _ 0 g.size, hfirst _ 0 9 (by rw [hsize]; decide)⟩

end Lifecycle
