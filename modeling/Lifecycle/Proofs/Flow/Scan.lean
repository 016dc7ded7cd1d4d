import Mathlib.Tactic.Common
import Lifecycle.Flow.Oracle

/-!
# Ways and scans

A scan does not follow every way. At a fork it moves two cursors, and where they do not meet it goes
on from the nearer one. The places it leaves off so are `dropped`, and they are all that a scan can
miss: what is handed on along the ways of a graph holds at the start just when it holds where the
scan ends or at a dropped place (`Followed.scan`).
-/

namespace Lifecycle

namespace Graph

/-- Where control can go from an instruction. -/
inductive Step (g : Graph) : Nat → Nat → Prop
  | access {pc : Nat} {i : Instr} {n : Node} (h : g.code[pc]? = some i)
      (ha : i.access? = some n) : Step g pc (pc + 1)
  | goto {pc : Nat} {n : Node} {j : Jump} (h : g.code[pc]? = some (.goto n j)) :
      Step g pc (pc + j.dist pc)
  | stay {pc : Nat} {n : Node} {d : Nat} (h : g.code[pc]? = some (.fork n d)) :
      Step g pc (pc + 1)
  | branch {pc : Nat} {n : Node} {d : Nat} (h : g.code[pc]? = some (.fork n d)) :
      Step g pc (pc + d)

/-- A way that passes only instructions with `P`; what stands at its end is not passed. -/
inductive Way (g : Graph) (P : Instr → Prop) : Nat → Nat → Prop
  | refl (pc : Nat) : Way g P pc pc
  | step {pc next last : Nat} {i : Instr} (h : g.code[pc]? = some i) (hp : P i)
      (hs : Step g pc next) (hw : Way g P next last) : Way g P pc last

mutual

/-- The places at which a scan leaves off although a way leads there: at a fork whose ways did
not meet it goes on from the nearer one. -/
def dropped (g : Graph) (q : Scan) : (steps pc until_ : Nat) → List Nat
  | 0, _, _ => []
  | n + 1, pc, until_ =>
    if until_ ≤ pc then []
    else
      match g.code[pc]? with
      | none => []
      | some (.goto _ j) => g.dropped q n (pc + j.dist pc) until_
      | some (.fork _ d) =>
        g.droppedFork q n (pc + 1) (pc + d) until_ ++
          match g.scanFork q n (pc + 1) (pc + d) until_ with
          | .at pc => g.dropped q n pc until_
          | _ => []
      | some (.define loc) =>
        match q.judge (.define loc) with
        | .goOn => g.dropped q n (pc + 1) until_
        | _ => []
      | some (.use loc) =>
        match q.judge (.use loc) with
        | .goOn => g.dropped q n (pc + 1) until_
        | _ => []

def droppedFork (g : Graph) (q : Scan) : (steps a b until_ : Nat) → List Nat
  | 0, _, _, _ => []
  | n + 1, a, b, until_ =>
    if a = b then []
    else if q.apart a b until_ then [max a b]
    else if a < b then
      g.dropped q n a (min b until_) ++
        match g.scan q n a (min b until_) with
        | .at a => g.droppedFork q n a b until_
        | _ => []
    else
      g.dropped q n b (min a until_) ++
        match g.scan q n b (min a until_) with
        | .at b => g.droppedFork q n a b until_
        | _ => []

end

section Equations

variable {g : Graph} {q : Scan} {k pc u : Nat} {i : Instr} {n : Node}

theorem code_size (g : Graph) : g.code[g.size]? = none := by
  simp [size]

theorem code_cases (g : Graph) (pc : Nat) :
    g.code[pc]? = none ∨ (∃ n j, g.code[pc]? = some (.goto n j)) ∨
      (∃ n d, g.code[pc]? = some (.fork n d)) ∨
      ∃ i n, g.code[pc]? = some i ∧ i.access? = some n := by
  rcases h : g.code[pc]? with _ | i
  · exact .inl rfl
  · cases i with
    | goto n j => exact .inr (.inl ⟨n, j, rfl⟩)
    | fork n d => exact .inr (.inr (.inl ⟨n, d, rfl⟩))
    | define n => exact .inr (.inr (.inr ⟨_, n, rfl, rfl⟩))
    | use n => exact .inr (.inr (.inr ⟨_, n, rfl, rfl⟩))

theorem scan_access (h : g.code[pc]? = some i) (ha : i.access? = some n) (hu : pc < u) :
    g.scan q (k + 1) pc u =
      match q.judge i with
      | .goOn => g.scan q k (pc + 1) u
      | .settled => .at g.size
      | .clash => .clash n := by
  rw [scan, if_neg (by omega), h]
  cases i with
  | goto n j => simp [Instr.access?] at ha
  | fork n d => simp [Instr.access?] at ha
  | define n => cases ha; rfl
  | use n => cases ha; rfl

theorem dropped_access (h : g.code[pc]? = some i) (ha : i.access? = some n) (hu : pc < u) :
    g.dropped q (k + 1) pc u =
      match q.judge i with
      | .goOn => g.dropped q k (pc + 1) u
      | _ => [] := by
  rw [dropped, if_neg (by omega), h]
  cases i with
  | goto n j => simp [Instr.access?] at ha
  | fork n d => simp [Instr.access?] at ha
  | define n => rfl
  | use n => rfl

end Equations

mutual

/-- The scan from a place up to a bound ends so, however many steps it takes. -/
inductive Scans (g : Graph) (q : Scan) : Nat → Nat → ScanEnd → Prop
  | bound {pc u : Nat} (hu : u ≤ pc) : Scans g q pc u (.at pc)
  | beyond {pc u : Nat} (h : g.code[pc]? = none) : Scans g q pc u (.at pc)
  | goto {pc u : Nat} {n : Node} {j : Jump} {e : ScanEnd} (hu : pc < u)
      (h : g.code[pc]? = some (.goto n j)) (hs : Scans g q (pc + j.dist pc) u e) :
      Scans g q pc u e
  | fork {pc u d m : Nat} {n : Node} {e : ScanEnd} (hu : pc < u)
      (h : g.code[pc]? = some (.fork n d)) (hf : ScansFork g q (pc + 1) (pc + d) u (.at m))
      (hs : Scans g q m u e) : Scans g q pc u e
  | forkClash {pc u d : Nat} {n w : Node} (hu : pc < u) (h : g.code[pc]? = some (.fork n d))
      (hf : ScansFork g q (pc + 1) (pc + d) u (.clash w)) : Scans g q pc u (.clash w)
  | goOn {pc u : Nat} {i : Instr} {n : Node} {e : ScanEnd} (hu : pc < u)
      (h : g.code[pc]? = some i) (ha : i.access? = some n) (hj : q.judge i = .goOn)
      (hs : Scans g q (pc + 1) u e) : Scans g q pc u e
  | settled {pc u : Nat} {i : Instr} {n : Node} (hu : pc < u) (h : g.code[pc]? = some i)
      (ha : i.access? = some n) (hj : q.judge i = .settled) : Scans g q pc u (.at g.size)
  | clash {pc u : Nat} {i : Instr} {n : Node} (hu : pc < u) (h : g.code[pc]? = some i)
      (ha : i.access? = some n) (hj : q.judge i = .clash) : Scans g q pc u (.clash n)

/-- The ways behind a fork are scanned in turns, from the one that is behind. -/
inductive ScansFork (g : Graph) (q : Scan) : Nat → Nat → Nat → ScanEnd → Prop
  | met (a u : Nat) : ScansFork g q a a u (.at a)
  | apart {a b u : Nat} (hab : a ≠ b) (h : q.apart a b u = true) :
      ScansFork g q a b u (.at (min a b))
  | left {a b u a' : Nat} {e : ScanEnd} (hab : a < b) (h : q.apart a b u = false)
      (hs : Scans g q a (min b u) (.at a')) (hf : ScansFork g q a' b u e) : ScansFork g q a b u e
  | right {a b u b' : Nat} {e : ScanEnd} (hab : b < a) (h : q.apart a b u = false)
      (hs : Scans g q b (min a u) (.at b')) (hf : ScansFork g q a b' u e) : ScansFork g q a b u e
  | leftClash {a b u : Nat} {w : Node} (hab : a < b) (h : q.apart a b u = false)
      (hs : Scans g q a (min b u) (.clash w)) : ScansFork g q a b u (.clash w)
  | rightClash {a b u : Nat} {w : Node} (hab : b < a) (h : q.apart a b u = false)
      (hs : Scans g q b (min a u) (.clash w)) : ScansFork g q a b u (.clash w)

end

mutual

theorem scans_of_scan {g : Graph} {q : Scan} : ∀ (k pc u : Nat), g.scan q k pc u ≠ .lost →
    g.Scans q pc u (g.scan q k pc u)
  | 0, pc, u, h => by simp [scan] at h
  | k + 1, pc, u, h => by
    rcases Nat.lt_or_ge pc u with hu | hu
    · rcases g.code_cases pc with hc | ⟨n, j, hc⟩ | ⟨n, d, hc⟩ | ⟨i, n, hc, ha⟩
      · rw [scan, if_neg (by omega), hc]
        exact .beyond hc
      · rw [scan, if_neg (by omega), hc] at h ⊢
        exact .goto hu hc (scans_of_scan k _ u h)
      · rw [scan, if_neg (by omega), hc] at h ⊢
        dsimp only at h ⊢
        have hf := scansFork_of_scanFork (g := g) (q := q) k (pc + 1) (pc + d) u
        rcases hs : g.scanFork q k (pc + 1) (pc + d) u with m | w | _ <;> rw [hs] at h hf
        · exact .fork hu hc (hf (by simp)) (scans_of_scan k m u h)
        · exact .forkClash hu hc (hf (by simp))
        · exact absurd rfl h
      · rw [scan_access hc ha hu] at h ⊢
        rcases hj : q.judge i with _ | _ | _ <;> rw [hj] at h
        · exact .goOn hu hc ha hj (scans_of_scan k _ u h)
        · exact .settled hu hc ha hj
        · exact .clash hu hc ha hj
    · rw [scan, if_pos hu]
      exact .bound hu

theorem scansFork_of_scanFork {g : Graph} : ∀ (k a b u : Nat),
    g.scanFork q k a b u ≠ .lost → g.ScansFork q a b u (g.scanFork q k a b u)
  | 0, a, b, u, h => by simp [scanFork] at h
  | k + 1, a, b, u, h => by
    rw [scanFork] at h ⊢
    split_ifs at h ⊢ with heq hap hlt
    · subst heq
      exact .met a u
    · exact .apart heq hap
    · have hs := scans_of_scan (g := g) (q := q) k a (min b u)
      have hap : q.apart a b u = false := by simpa using hap
      rcases hc : g.scan q k a (min b u) with a' | w | _ <;> rw [hc] at h hs
      · exact .left hlt hap (hs (by simp)) (scansFork_of_scanFork k a' b u h)
      · exact .leftClash hlt hap (hs (by simp))
      · exact absurd rfl h
    · have hs := scans_of_scan (g := g) (q := q) k b (min a u)
      have hap : q.apart a b u = false := by simpa using hap
      have hlt : b < a := by omega
      rcases hc : g.scan q k b (min a u) with b' | w | _ <;> rw [hc] at h hs
      · exact .right hlt hap (hs (by simp)) (scansFork_of_scanFork k a b' u h)
      · exact .rightClash hlt hap (hs (by simp))
      · exact absurd rfl h

end

theorem scans_of_scan_at {g : Graph} (h : g.scan q k pc u = .at e) : g.Scans q pc u (.at e) :=
  h ▸ scans_of_scan k pc u (by simp [h])

def EndsFrom (pc : Nat) : ScanEnd → Prop
  | .at e => pc ≤ e
  | _ => True

theorem Scans.past {g : Graph} : ∀ {pc u : Nat} {r : ScanEnd}, g.Scans q pc u r →
    EndsFrom (min u g.size) r
  | _, _, _, .bound hu => Nat.le_trans (Nat.min_le_left _ _) hu
  | _, _, _, .beyond h => Nat.le_trans (Nat.min_le_right _ _) (Array.getElem?_eq_none_iff.1 h)
  | _, _, _, .goto _ _ hs | _, _, _, .fork _ _ _ hs | _, _, _, .goOn _ _ _ _ hs => hs.past
  | _, _, _, .settled _ _ _ _ => Nat.min_le_right _ _
  | _, _, _, .forkClash _ _ _ | _, _, _, .clash _ _ _ _ => trivial

theorem le_of_scan {g : Graph} (h : g.scan q k pc u = .at e) : min u g.size ≤ e :=
  (scans_of_scan_at h).past

def Passes (q : Scan) (i : Instr) : Prop := i.access? = none ∨ q.judge i = .goOn

/-- What a scan may rely on about a property of places: a place has it just when one to which the
scan goes on has it, and where the scan is settled, or past the end, the property does not hold. -/
structure Followed (g : Graph) (q : Scan) (Bad : Nat → Prop) : Prop where
  beyond : ∀ {pc}, g.code[pc]? = none → ¬ Bad pc
  goto : ∀ {pc n j}, g.code[pc]? = some (.goto n j) → (Bad pc ↔ Bad (pc + j.dist pc))
  fork : ∀ {pc n d}, g.code[pc]? = some (.fork n d) → (Bad pc ↔ Bad (pc + 1) ∨ Bad (pc + d))
  access : ∀ {pc i n}, g.code[pc]? = some i → i.access? = some n → q.judge i = .goOn →
    (Bad pc ↔ Bad (pc + 1))
  settled : ∀ {pc i n}, g.code[pc]? = some i → i.access? = some n → q.judge i = .settled →
    ¬ Bad pc

theorem step_access {g : Graph} (h : g.code[pc]? = some i)
    (ha : i.access? = some n) (hs : g.Step pc next) : next = pc + 1 := by
  cases hs with
  | access => rfl
  | goto h' => rw [h] at h'; cases h'; simp [Instr.access?] at ha
  | stay => rfl
  | branch h' => rw [h] at h'; cases h'; simp [Instr.access?] at ha

/-- A way over instructions with `P` comes to one with `Q`. -/
def Meets (g : Graph) (P : Instr → Prop) (Q : Nat → Instr → Prop) (pc : Nat) : Prop :=
  ∃ last i, g.Way P pc last ∧ g.code[last]? = some i ∧ Q last i

section Meets

variable {g : Graph} {q : Scan} {P : Instr → Prop} {Q : Nat → Instr → Prop} {pc : Nat} {i : Instr}

theorem Meets.cases (h : g.Meets P Q pc) (hi : g.code[pc]? = some i) :
    Q pc i ∨ P i ∧ ∃ next, g.Step pc next ∧ g.Meets P Q next := by
  obtain ⟨last, j, hw, hl, hj⟩ := h
  cases hw with
  | refl =>
    rw [hi] at hl
    cases hl
    exact .inl hj
  | step h hp hs hw =>
    rw [hi] at h
    cases h
    exact .inr ⟨hp, _, hs, last, j, hw, hl, hj⟩

theorem Meets.step {next : Nat} (hi : g.code[pc]? = some i) (hp : P i) (hs : g.Step pc next)
    (h : g.Meets P Q next) : g.Meets P Q pc := by
  obtain ⟨last, j, hw, hl, hj⟩ := h
  exact ⟨last, j, .step hi hp hs hw, hl, hj⟩

theorem not_meets_of_none (h : g.code[pc]? = none) : ¬ g.Meets P Q pc := by
  rintro ⟨last, j, hw, hl, hj⟩
  cases hw with
  | refl => rw [h] at hl; cases hl
  | step h' => rw [h] at h'; cases h'

theorem Meets.goto {n : Node} {j : Jump} (h : g.Meets P Q pc) (hi : g.code[pc]? = some (.goto n j))
    (hq : ¬ Q pc (.goto n j)) : g.Meets P Q (pc + j.dist pc) := by
  obtain ⟨-, next, hs, hn⟩ := (h.cases hi).resolve_left hq
  cases hs with
  | access h' ha => rw [hi] at h'; cases h'; cases ha
  | goto h' => rw [hi] at h'; cases h'; exact hn
  | stay h' => rw [hi] at h'; cases h'
  | branch h' => rw [hi] at h'; cases h'

theorem Meets.fork (h : g.Meets P Q pc) (hi : g.code[pc]? = some (.fork n d))
    (hq : ¬ Q pc (.fork n d)) : g.Meets P Q (pc + 1) ∨ g.Meets P Q (pc + d) := by
  obtain ⟨-, next, hs, hn⟩ := (h.cases hi).resolve_left hq
  cases hs with
  | access h' ha => rw [hi] at h'; cases h'; cases ha
  | goto h' => rw [hi] at h'; cases h'
  | stay h' => exact .inl hn
  | branch h' => rw [hi] at h'; cases h'; exact .inr hn

theorem Meets.access {n : Node} (h : g.Meets P Q pc) (hi : g.code[pc]? = some i)
    (ha : i.access? = some n) : Q pc i ∨ P i ∧ g.Meets P Q (pc + 1) := by
  refine (h.cases hi).imp_right fun ⟨hp, next, hs, hn⟩ => ⟨hp, ?_⟩
  rwa [step_access hi ha hs] at hn

/-- A scan follows the ways to what has `Q` if it passes only instructions with `P` and without `Q`,
and is settled only where neither holds. -/
theorem followed_meets (hpass : ∀ {i}, Passes q i → P i) (hnot : ∀ {pc i}, Passes q i → ¬ Q pc i)
    (hsettled : ∀ {pc i}, q.judge i = .settled → ¬ Q pc i ∧ ¬ P i) :
    g.Followed q (g.Meets P Q) where
  beyond := not_meets_of_none
  goto h := ⟨fun hb => hb.goto h (hnot (.inl rfl)), .step h (hpass (.inl rfl)) (.goto h)⟩
  fork h := ⟨fun hb => hb.fork h (hnot (.inl rfl)), fun hb =>
    hb.elim (.step h (hpass (.inl rfl)) (.stay h)) (.step h (hpass (.inl rfl)) (.branch h))⟩
  access h ha hj := ⟨fun hb => ((hb.access h ha).resolve_left (hnot (.inr hj))).2,
    .step h (hpass (.inr hj)) (.access h ha)⟩
  settled {pc i n} h ha hj hb := by
    obtain ⟨hq, hp⟩ := @hsettled pc i hj
    exact (hb.access h ha).elim hq fun hb => hp hb.1

end Meets

section Followed

variable {g : Graph} {q : Scan} {Bad : Nat → Prop}

theorem or_dropped {ds ds' : List Nat} :
    ((p ∨ ∃ c ∈ ds', Bad c) ∨ ∃ c ∈ ds, Bad c) ↔ p ∨ ∃ c ∈ ds ++ ds', Bad c := by
  simp only [List.mem_append, or_and_right, exists_or, or_assoc, or_comm (a := ∃ c ∈ ds, Bad c)]

mutual

/-- A scan that ends at a place has followed every way up to there, but for those it dropped. -/
theorem Followed.scan (hb : g.Followed q Bad) : ∀ (k pc u : Nat) {e : Nat},
    g.scan q k pc u = .at e → (Bad pc ↔ Bad e ∨ ∃ c ∈ g.dropped q k pc u, Bad c)
  | 0, pc, u, e, h => by simp [Graph.scan] at h
  | k + 1, pc, u, e, h => by
    rcases Nat.lt_or_ge pc u with hu | hu
    · rcases g.code_cases pc with hc | ⟨n, j, hc⟩ | ⟨n, d, hc⟩ | ⟨i, n, hc, ha⟩
      · rw [Graph.scan, if_neg (by omega), hc] at h
        rw [dropped, if_neg (by omega), hc]
        cases h
        simp
      · rw [Graph.scan, if_neg (by omega), hc] at h
        rw [dropped, if_neg (by omega), hc, hb.goto hc]
        exact hb.scan k _ u h
      · rw [Graph.scan, if_neg (by omega), hc] at h
        rw [dropped, if_neg (by omega), hc, hb.fork hc]
        dsimp only at h ⊢
        rcases hs : g.scanFork q k (pc + 1) (pc + d) u with m | w | _ <;> rw [hs] at h
        · rw [hb.scanFork k _ _ u hs, hb.scan k m u h, or_dropped]
        · cases h
        · cases h
      · rw [scan_access hc ha hu] at h
        rw [dropped_access hc ha hu]
        rcases hj : q.judge i with _ | _ | _ <;> rw [hj] at h
        · rw [hb.access hc ha hj]
          exact hb.scan k _ u h
        · cases h
          simp [hb.settled hc ha hj, hb.beyond g.code_size]
        · cases h
    · rw [Graph.scan, if_pos hu] at h
      rw [dropped, if_pos hu]
      cases h
      simp

theorem Followed.scanFork (hb : g.Followed q Bad) : ∀ (k a b u : Nat) {e : Nat},
    g.scanFork q k a b u = .at e → (Bad a ∨ Bad b ↔ Bad e ∨ ∃ c ∈ g.droppedFork q k a b u, Bad c)
  | 0, a, b, u, e, h => by simp [Graph.scanFork] at h
  | k + 1, a, b, u, e, h => by
    rw [Graph.scanFork] at h
    rw [droppedFork]
    split_ifs at h ⊢ with heq hap hlt
    · cases h
      simp [heq]
    · cases h
      rcases Nat.le_total a b with hle | hle
      · simp [hle]
      · simp [hle, or_comm]
    · rcases hs : g.scan q k a (min b u) with m | w | _ <;> rw [hs] at h
      · rw [hb.scan k a _ hs, or_right_comm, hb.scanFork k m b u h, or_dropped]
      · cases h
      · cases h
    · rcases hs : g.scan q k b (min a u) with m | w | _ <;> rw [hs] at h
      · rw [hb.scan k b _ hs, ← or_assoc, hb.scanFork k a m u h, or_dropped]
      · cases h
      · cases h

end

end Followed

end Graph

end Lifecycle
